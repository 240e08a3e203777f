import BlockArchive.Proofs.Table.Filling
import BlockArchive.Proofs.Table.Serving

/-! # A table as a list of items

A table that is made where there was none is a list of items that is open or closed, whatever cap it
is opened with.

* **`ItemList`**: `answer` is what the list answers to a request, and `next` the list that it is
  then.  Of the table only its counters enter: an item has no place only where the last segment id
  is used up and the head cannot take it (`IsFull`).
* **One step.** A table that keeps a list answers as the list does, and then keeps the next one;
  what it refuses changes nothing (`Keeping.exists_serve`).
* **A whole run** mirrors the list, and at each point the table counts its items
  (`mirrors_of_index_missing`). -/

namespace BlockArchive.Table

open IndexEntry FileSystem

/-! ### Lists -/

/-- Whether the last segment id is used up, and `len` bytes more would push the head past the cap or
past what an offset can say. -/
def IsFull (table : Table) (len : Nat) : Prop :=
  table.headId = lastSegmentId ∧
    (table.cap < table.headBytes + len ∨ offsetLimit ≤ table.headBytes + len)

instance (table : Table) (len : Nat) : Decidable (table.IsFull len) :=
  inferInstanceAs (Decidable (_ ∧ _))

/-- The items of a table, and whether it is open. -/
structure ItemList where
  items : List Bytes
  isOpen : Bool
deriving DecidableEq

namespace ItemList

/-- What is answered to a request when `table` keeps the list. -/
def answer (list : ItemList) (table : Table) : Request → Except Error Answer
  | .append item blob =>
      if offsetLimit ≤ blob.length then .error (.itemTooLarge blob.length)
      else if list.isOpen = false then .error .closed
      else if item ≠ list.items.length then .error (.sequence list.items.length item)
      else if table.IsFull blob.length then .error (.segmentsExhausted table.name)
      else .ok .done
  | .retrieve item =>
      if list.isOpen = false then .error .closed else (itemAnswer list.items item).map .bytes
  | .size =>
      if list.isOpen = false then .error .closed
      else .ok (.number (width * (list.items.length + 1) + (list.items.map List.length).sum))
  | .truncate _ | .sync | .close => if list.isOpen = false then .error .closed else .ok .done
  | .reopen _ => .ok .done

/-- The list after a request that was carried out. -/
def next (list : ItemList) : Request → ItemList
  | .append _ blob => { list with items := list.items ++ [blob] }
  | .truncate count => { list with items := list.items.take count }
  | .close => { list with isOpen := false }
  | .reopen _ => { list with isOpen := true }
  | .retrieve _ | .size | .sync => list

end ItemList

/-- The requests are answered one after the other as by the list, one that is refused changes
nothing, and while the table is open it counts the items of the list. -/
inductive Mirrors (root : Path) (name : String) : ItemList → Table × Disk → List Request → Prop where
  | nil {list : ItemList} {state : Table × Disk}
      (hcount : list.isOpen = true → state.1.items = list.items.length) :
      Mirrors root name list state []
  | done {list : ItemList} {state state' : Table × Disk} {request : Request}
      {requests : List Request} {answer : Answer}
      (hcount : list.isOpen = true → state.1.items = list.items.length)
      (hanswer : list.answer state.1 request = .ok answer)
      (hrun : (serve root name request).outcome state = (.ok answer, state'))
      (hrest : Mirrors root name (list.next request) state' requests) :
      Mirrors root name list state (request :: requests)
  | refused {list : ItemList} {state : Table × Disk} {request : Request}
      {requests : List Request} {e : Error}
      (hcount : list.isOpen = true → state.1.items = list.items.length)
      (hanswer : list.answer state.1 request = .error e)
      (hrun : (serve root name request).outcome state = (.error e, state))
      (hrest : Mirrors root name list state requests) :
      Mirrors root name list state (request :: requests)

variable {names : String → Prop} {place : Location} {root : Path} {name : String}
  {entries entries' : List IndexEntry} {list : ItemList} {state state' : Table × Disk}
  {table : Table} {disk : Disk} {items : List Bytes}

theorem hasRoom_iff {len : Nat} (hlen : len < offsetLimit) (hhead : table.headId ≤ lastSegmentId) :
    table.HasRoom len ↔ ¬table.IsFull len := by
  have hover : table.overflows len = true ↔
      table.cap < table.headBytes + len ∨ offsetLimit ≤ table.headBytes + len := by
    simp only [overflows, Bool.or_eq_true, decide_eq_true_eq]
    exact or_comm
  unfold HasRoom IsFull
  rw [hover]
  constructor
  · rintro ⟨-, hbelow⟩ ⟨hlast, hpast⟩
    have := hbelow hpast
    omega
  · intro hfull
    refine ⟨hlen, fun hpast => ?_⟩
    have : table.headId ≠ lastSegmentId := fun hlast => hfull ⟨hlast, hpast⟩
    omega

/-! ### Tables that keep a list -/

/-- The table and its files stand for the list, and each segment ends with its last item. -/
structure Keeping (names : String → Prop) (place : Location) (root : Path) (name : String)
    (entries : List IndexEntry) (list : ItemList) (state : Table × Disk) : Prop where
  represents : Represents names place root name 0 entries ⟨list.items, [], list.isOpen⟩ state
  fills : Fills (state.2.files.folder place) name entries

theorem Indexed.entries_eq {folder : Folder} (h : Indexed folder name entries)
    (h' : Indexed folder name entries') : entries = entries' := by
  have hcontent : encodeAll entries = encodeAll entries' :=
    Option.some.inj (h.index.symm.trans h'.index)
  rw [← Audit.entries_encodeAll h.storable, hcontent, Audit.entries_encodeAll h'.storable]

namespace Keeping

theorem whole (h : Keeping names place root name entries list state) :
    Whole (state.2.files.folder place) name entries :=
  h.represents.steady.whole (UInt32.toNat_inj.1 h.represents.pruned)

theorem items_eq (h : Keeping names place root name entries list state)
    (hopen : list.isOpen = true) : state.1.items = list.items.length := by
  rw [h.represents.items_eq hopen, Nat.zero_add]

theorem exists_cap (h : Keeping names place root name entries ⟨items, true⟩ (table, disk)) :
    ∃ cap, table = opened disk.files place root name cap entries :=
  h.represents.whenOpen rfl

section changes

variable (hnames : ∀ file, IsFileOf name file → names file)
include hnames

theorem outcome_append {cap : Nat} {blob : Bytes} {disk' : Disk}
    (h : Keeping names place root name entries ⟨items, true⟩ (table, disk))
    (htable : table = opened disk.files place root name cap entries)
    (hroom : table.HasRoom blob.length)
    (hdisk' : disk' = disk.after place (appending (disk.files.folder place) table blob)) :
    (append items.length blob).outcome (table, disk) =
        (.ok (), (opened disk'.files place root name cap
          (entries ++ [table.entryFor blob.length]), disk')) ∧
      disk'.files.folder place =
        (disk.files.folder place).after (appending (disk.files.folder place) table blob) := by
  have hwhole : Whole (disk.files.folder place) name entries := h.whole
  have hhead : table.headId ≤ lastSegmentId := by
    rw [htable, opened_headId]
    exact hwhole.head_le
  have hwithin : ∀ file, IsFileWithin name table.headId (table.slot blob.length).1 file →
      names file := fun _ hfile => hnames _ (hfile.isFileOf (hroom.slot_le hhead))
  have hcount : table.items = items.length := h.items_eq rfl
  have hrun := outcome_append_ok htable h.represents.houses hwithin hwhole.indexed hroom hdisk'
  rw [hcount] at hrun
  exact ⟨hrun, (houses_and_folder_appending htable h.represents.houses hwithin hwhole.indexed
    hdisk').2⟩

/-- An item for which there is a place is added. -/
theorem exists_append {blob : Bytes}
    (h : Keeping names place root name entries ⟨items, true⟩ (table, disk))
    (hroom : table.HasRoom blob.length) :
    ∃ entries' state', (append items.length blob).outcome (table, disk) = (.ok (), state') ∧
      Keeping names place root name entries' ⟨items ++ [blob], true⟩ state' := by
  obtain ⟨entries', state', hrun, hreached⟩ := h.represents.exists_append hnames hroom
  rw [Nat.zero_add] at hrun
  have hrepresents := hreached.represents
  rw [ite_self, List.nil_append] at hrepresents
  refine ⟨entries', state', hrun, hrepresents, ?_⟩
  -- the files are those after the changes of an append
  obtain ⟨cap, htable⟩ := h.exists_cap
  have hwhole : Whole (disk.files.folder place) name entries := h.whole
  obtain ⟨happend, hfolder⟩ := h.outcome_append hnames htable hroom rfl
  rw [hrun] at happend
  obtain ⟨-, rfl⟩ := Prod.mk.inj happend
  have hfills := h.fills.appending hwhole htable hroom
  have hindexed := (hwhole.appending htable hroom).1.indexed
  rw [← hfolder] at hfills hindexed
  rwa [hrepresents.steady.toIndexed.entries_eq hindexed]

theorem outcome_truncate {cap count : Nat} {disk' : Disk}
    (h : Keeping names place root name entries ⟨items, true⟩ (table, disk))
    (htable : table = opened disk.files place root name cap entries) (hcount : count < items.length)
    (hdisk' : disk' = disk.after place (cutting name entries count)) :
    (truncate count).outcome (table, disk) =
        (.ok (), (opened disk'.files place root name cap (entries.take (count + 1)), disk')) ∧
      disk'.files.folder place = (disk.files.folder place).after (cutting name entries count) := by
  have hwhole : Whole (disk.files.folder place) name entries := h.whole
  have hlength : entries.length = items.length + 1 := h.represents.length_entries
  have hlong : count + 1 < entries.length := by omega
  have hwithin : ∀ file, IsFileWithin name (firstOf entries).segment.toNat
      (lastOf entries).segment.toNat file → names file :=
    fun _ hfile => h.represents.names_of_isFileWithin hnames hfile
  have hrun :=
    Table.outcome_truncate htable h.represents.houses hwithin hwhole.intact hlong hdisk'
  rw [hwhole.firstOf_offset, Nat.zero_add] at hrun
  have hchanges : ∀ change ∈ cutting name entries count, names change.name := fun change hmem =>
    hwithin _ (isFileWithin_of_mem_cutting hwhole.intact hlong hmem)
  refine ⟨hrun, ?_⟩
  rw [hdisk']
  exact Disk.folder_after h.represents.houses hchanges (fits_cutting hwhole.intact hlong)

/-- A cut keeps the items below its bound. -/
theorem exists_truncate {count : Nat}
    (h : Keeping names place root name entries ⟨items, true⟩ (table, disk))
    (hcount : count < items.length) :
    ∃ entries' state', (truncate count).outcome (table, disk) = (.ok (), state') ∧
      Keeping names place root name entries' ⟨items.take count, true⟩ state' := by
  obtain ⟨entries', left', state', hrun, -, -, hreached⟩ :=
    h.represents.exists_truncate hnames hcount
  rw [Nat.zero_add] at hrun
  have hrepresents := hreached.represents
  have hleft : left' = [] := by
    have hwhole := hrepresents.steady.whole (UInt32.toNat_inj.1 hrepresents.pruned)
    rw [← hwhole.leftIn_eq_nil]
    exact hrepresents.left
  rw [hleft] at hrepresents
  refine ⟨entries', state', hrun, hrepresents, ?_⟩
  -- the files are those after the changes of a cut
  obtain ⟨cap, htable⟩ := h.exists_cap
  have hwhole : Whole (disk.files.folder place) name entries := h.whole
  have hlength : entries.length = items.length + 1 := h.represents.length_entries
  have hlong : count + 1 < entries.length := by omega
  obtain ⟨hcut, hfolder⟩ := h.outcome_truncate hnames htable hcount rfl
  rw [hrun] at hcut
  obtain ⟨-, rfl⟩ := Prod.mk.inj hcut
  have hfills := h.fills.cutting hwhole hlong
  have hindexed := (hwhole.cutting hlong).1.indexed
  rw [← hfolder] at hfills hindexed
  rwa [hrepresents.steady.toIndexed.entries_eq hindexed]

end changes

theorem outcome_size (h : Keeping names place root name entries ⟨items, true⟩ (table, disk)) :
    size.outcome (table, disk) =
      (.ok (width * (items.length + 1) + (items.map List.length).sum), (table, disk)) := by
  obtain ⟨cap, htable⟩ := h.exists_cap
  have hwhole : Whole (disk.files.folder place) name entries := h.whole
  have hitems : items = storedItems (disk.files.folder place) name entries := h.represents.items
  have hlength : entries.length = items.length + 1 := h.represents.length_entries
  have hsize : size.outcome (opened disk.files place root name cap entries, disk) = _ :=
    Table.outcome_size hwhole.indexed
  rw [bytesIn_eq hwhole.tail_le_head, h.fills.dataLength_eq hwhole.toBacked, hlength, ← hitems,
    ← htable] at hsize
  exact hsize

theorem outcome_retrieve (h : Keeping names place root name entries ⟨items, true⟩ (table, disk))
    (item : Nat) :
    (retrieve item).outcome (table, disk) = (itemAnswer items item, (table, disk)) := by
  obtain ⟨cap, htable⟩ := h.exists_cap
  have hwhole : Whole (disk.files.folder place) name entries := h.whole
  have hitems : items = storedItems (disk.files.folder place) name entries := h.represents.items
  rw [htable, hitems]
  exact Table.outcome_retrieve hwhole item

theorem exists_close (h : Keeping names place root name entries ⟨items, true⟩ (table, disk)) :
    ∃ state', close.outcome (table, disk) = (.ok (), state') ∧
      Keeping names place root name entries ⟨items, false⟩ state' := by
  obtain ⟨cap, htable⟩ := h.exists_cap
  obtain ⟨hhouses, hsteady, hpruned, hitems, hleft, -, -⟩ := h.represents
  exact ⟨_, outcome_close (by simp [htable]) disk,
    ⟨hhouses, hsteady, hpruned, hitems, hleft, by simp, fun _ => rfl⟩, h.fills⟩

end Keeping

/-! ### One step -/

theorem exists_refused_of_closed (h : table.index = none) {request : Request}
    (hreopen : ∀ cap, request ≠ .reopen cap) (root : Path) (name : String) (items : List Bytes)
    (disk : Disk) :
    ∃ e, (⟨items, false⟩ : ItemList).answer table request = .error e ∧
      (serve root name request).outcome (table, disk) = (.error e, (table, disk)) := by
  by_cases hlarge : ∃ item blob, request = .append item blob ∧ offsetLimit ≤ blob.length
  · obtain ⟨item, blob, rfl, hlarge⟩ := hlarge
    refine ⟨_, if_pos hlarge, ?_⟩
    exact outcome_done (outcome_append_tooLarge hlarge item (table, disk))
  · have hblob : ∀ item blob, request = .append item blob → blob.length < offsetLimit :=
      fun item blob heq => Nat.lt_of_not_le fun hle => hlarge ⟨item, blob, heq, hle⟩
    refine ⟨.closed, ?_, outcome_serve_of_closed h hreopen hblob root name disk⟩
    cases request with
    | append item blob => exact if_neg (Nat.not_le.2 (hblob item blob rfl))
    | reopen cap => exact absurd rfl (hreopen cap)
    | retrieve | truncate | size | sync | close => rfl

section step

variable (hnames : ∀ file, IsFileOf name file → names file)
include hnames

theorem Keeping.exists_serve_append
    (h : Keeping names place root name entries ⟨items, true⟩ (table, disk)) (item : Nat)
    (blob : Bytes) :
    (∃ answer entries' state', (⟨items, true⟩ : ItemList).answer table (.append item blob) =
        .ok answer ∧
      (serve root name (.append item blob)).outcome (table, disk) = (.ok answer, state') ∧
      Keeping names place root name entries' ⟨items ++ [blob], true⟩ state') ∨
    ∃ e, (⟨items, true⟩ : ItemList).answer table (.append item blob) = .error e ∧
      (serve root name (.append item blob)).outcome (table, disk) = (.error e, (table, disk)) := by
  obtain ⟨cap, htable⟩ := h.exists_cap
  have hindex : table.index = some (.file (disk.files.number place (indexFileName name)) true) := by
    rw [htable, opened_index]
  have hcount : table.items = items.length := h.items_eq rfl
  have hhead : table.headId ≤ lastSegmentId := by
    rw [htable, opened_headId]
    exact h.whole.head_le
  unfold ItemList.answer
  by_cases hlarge : offsetLimit ≤ blob.length
  · exact .inr ⟨_, if_pos hlarge, outcome_done (outcome_append_tooLarge hlarge item (table, disk))⟩
  have hblob := Nat.lt_of_not_le hlarge
  simp only [if_neg hlarge, Bool.true_eq_false, if_false]
  by_cases hitem : item = items.length
  · subst hitem
    by_cases hfull : table.IsFull blob.length
    · have hroom : ¬table.HasRoom blob.length := by
        rw [hasRoom_iff hblob hhead, not_not]
        exact hfull
      have hrun : (append table.items blob).outcome (table, disk) = _ :=
        outcome_append_error hindex hroom
      rw [hcount, refusal, if_neg hlarge] at hrun
      exact .inr ⟨_, by simp [hfull], outcome_done hrun⟩
    · obtain ⟨entries', state', hrun, hkeeping⟩ :=
        h.exists_append hnames ((hasRoom_iff hblob hhead).2 hfull)
      exact .inl ⟨.done, entries', state', by simp [hfull], outcome_done hrun, hkeeping⟩
  · have hrun := outcome_append_of_ne hindex hblob (hcount ▸ hitem) disk
    rw [hcount] at hrun
    exact .inr ⟨_, if_pos hitem, outcome_done hrun⟩

/-- A table that keeps a list answers as the list does, and then keeps the next one; what it refuses
changes nothing. -/
theorem Keeping.exists_serve (h : Keeping names place root name entries list state)
    (request : Request) :
    (∃ answer entries' state', list.answer state.1 request = .ok answer ∧
      (serve root name request).outcome state = (.ok answer, state') ∧
      Keeping names place root name entries' (list.next request) state') ∨
    ∃ e, list.answer state.1 request = .error e ∧
      (serve root name request).outcome state = (.error e, state) := by
  by_cases hreopen : ∃ cap, request = .reopen cap
  · obtain ⟨cap, rfl⟩ := hreopen
    obtain ⟨state', hrun, hsame, hreached⟩ := h.represents.exists_reopen hnames cap
    have hfills := h.fills
    rw [← hsame] at hfills
    exact .inl ⟨.done, entries, state', rfl, hrun, hreached.represents, hfills⟩
  have hother : ∀ cap, request ≠ .reopen cap := fun cap heq => hreopen ⟨cap, heq⟩
  obtain ⟨items, isOpen⟩ := list
  obtain ⟨table, disk⟩ := state
  cases isOpen with
  | false =>
      exact .inr (exists_refused_of_closed (h.represents.whenClosed rfl) hother root name items disk)
  | true =>
      obtain ⟨cap, htable⟩ := h.exists_cap
      have hindex : table.index =
          some (.file (disk.files.number place (indexFileName name)) true) := by
        rw [htable, opened_index]
      cases request with
      | reopen cap => exact absurd rfl (hother cap)
      | append item blob => exact h.exists_serve_append hnames item blob
      | retrieve item =>
          have hrun : (serve root name (.retrieve item)).outcome (table, disk) =
              ((itemAnswer items item).map .bytes, (table, disk)) := by
            unfold serve
            rw [Attempt.outcome_bind, h.outcome_retrieve item]
            cases itemAnswer items item <;> rfl
          cases hanswer : (itemAnswer items item).map Answer.bytes with
          | ok answer => exact .inl ⟨answer, entries, (table, disk), hanswer, hanswer ▸ hrun, h⟩
          | error e => exact .inr ⟨e, hanswer, hanswer ▸ hrun⟩
      | truncate count =>
          by_cases hcount : count < items.length
          · obtain ⟨entries', state', hrun, hkeeping⟩ := h.exists_truncate hnames hcount
            exact .inl ⟨.done, entries', state', rfl, outcome_done hrun, hkeeping⟩
          · have hle : table.items ≤ count := by
              have hitems : table.items = items.length := h.items_eq rfl
              omega
            refine .inl ⟨.done, entries, (table, disk), rfl,
              outcome_done (outcome_truncate_of_le hindex hle), ?_⟩
            rwa [ItemList.next, List.take_of_length_le (Nat.not_lt.1 hcount)]
      | size =>
          refine .inl ⟨_, entries, (table, disk), rfl, ?_, h⟩
          unfold serve
          rw [Attempt.outcome_bind_ok h.outcome_size]
          rfl
      | sync =>
          exact .inl ⟨.done, entries, (table, disk), rfl, outcome_done (outcome_sync hindex disk), h⟩
      | close =>
          obtain ⟨state', hrun, hkeeping⟩ := h.exists_close
          exact .inl ⟨.done, entries, state', rfl, outcome_done hrun, hkeeping⟩

/-! ### A whole run -/

theorem Keeping.mirrors (h : Keeping names place root name entries list state)
    (requests : List Request) : Mirrors root name list state requests := by
  induction requests generalizing entries list state with
  | nil => exact .nil h.items_eq
  | cons request requests ih =>
      rcases h.exists_serve hnames request with
        ⟨answer, entries', state', hanswer, hrun, hkeeping⟩ | ⟨e, hanswer, hrun⟩
      · exact .done h.items_eq hanswer hrun (ih hkeeping)
      · exact .refused h.items_eq hanswer hrun (ih h)

end step

/-- In a directory without an index of the table, such as an empty one, a table is the list of its
items, whatever is asked of it and whatever cap it is opened with each time. -/
theorem mirrors_of_index_missing (hhouses : disk.files.Houses (IsFileOf name) root place)
    (hindex : disk.files.folder place (indexFileName name) = none) (hclosed : table.index = none)
    (requests : List Request) : Mirrors root name ⟨[], false⟩ (table, disk) requests := by
  induction requests with
  | nil => exact .nil (by simp)
  | cons request requests ih =>
      by_cases hreopen : ∃ cap, request = .reopen cap
      · obtain ⟨cap, rfl⟩ := hreopen
        obtain ⟨state', hrun, hrepresents, -⟩ :=
          exists_reopen_of_missing (fun _ => id) hhouses hindex cap table
        have hwhole := hrepresents.steady.whole (UInt32.toNat_inj.1 hrepresents.pruned)
        have hkeeping : Keeping (IsFileOf name) place root name [.sentinel] ⟨[], true⟩ state' :=
          ⟨hrepresents, .of_no_items hwhole rfl⟩
        exact .done (by simp) rfl hrun (hkeeping.mirrors (fun _ => id) requests)
      · obtain ⟨e, hanswer, hrun⟩ := exists_refused_of_closed hclosed
          (fun cap heq => hreopen ⟨cap, heq⟩) root name [] disk
        exact .refused (by simp) hanswer hrun ih

/-- In an empty directory, under a cap of nothing and then of three bytes. -/
theorem mirrors_of_index_missing_emptyDirectory :
    (Disk.ofFiles (ofListing [])).files.folder ["a"] (indexFileName Column.hashes.name) = none ∧
      Mirrors ⟨["", "a"]⟩ Column.hashes.name ⟨[], false⟩
        (unopened ⟨["", "a"]⟩ Column.hashes.name, Disk.ofFiles (ofListing []))
        [.reopen 0, .append 0 [], .append 1 [1, 2], .append 2 [], .close, .reopen 3, .append 3 [7],
          .append 7 [1], .truncate 2, .retrieve 1, .size] := by
  have hmissing : (Disk.ofFiles (ofListing [])).files.folder ["a"]
      (indexFileName Column.hashes.name) = none := by
    rw [Disk.ofFiles, folder_ofListing]
    rfl
  have hhouses : (Disk.ofFiles (ofListing [])).files.Houses (IsFileOf Column.hashes.name)
      ⟨["", "a"]⟩ ["a"] :=
    (Archive.houses_ofListing []).mono fun _ => Archive.isFile_of_isFileOf
  exact ⟨hmissing, mirrors_of_index_missing hhouses hmissing rfl _⟩

end BlockArchive.Table
