import BlockArchive.Proofs.Auditing
import BlockArchive.Proofs.Performing
import BlockArchive.Proofs.Table.Appending
import BlockArchive.Proofs.Table.Opening

/-! # What a table answers

A table stands for a list of items, numbered from the count of items that were pruned from its front
(`Holding`).

* **`Serves`** is what a table may answer to a request, and what it then stands for.  A table that
  is not pruned is just the list.  In a pruned one entry zero's offset, which counts items, is also
  taken for the length of the head when the last item is cut away, so that as many bytes stay in the
  head; they go in front of the next item, unless it begins a segment.
* **One step.** A steady table answers as it may, and is steady again (`Represents.exists_serve`).
* **A whole run** follows the list, and at each point the counters and an audit show it
  (`follows_of_steady`). -/

namespace BlockArchive.Table

open IndexEntry FileSystem

/-- A request to a table. -/
inductive Request where
  | append (item : Nat) (blob : Bytes)
  | retrieve (item : Nat)
  | truncate (items : Nat)
  | size
  | sync
  | close
  | reopen (cap : Nat)

/-- What a request that is carried out is answered with. -/
inductive Answer where
  | done
  | bytes (data : Bytes)
  | number (n : Nat)
deriving DecidableEq

/-- Carries out a request on the table `name` in `root`. -/
def serve (root : Path) (name : String) : Request → Action (Table × Disk) Answer
  | .append item blob => do
      append item blob
      return .done
  | .retrieve item => return .bytes (← retrieve item)
  | .truncate items => do
      truncate items
      return .done
  | .size => return .number (← size)
  | .sync => do
      sync
      return .done
  | .close => do
      close
      return .done
  | .reopen cap => do
      let table ← Attempt.onSecond (openIn root name cap)
      Attempt.update fun _ => table
      return .done

/-- What a list of requests leaves. -/
def served (root : Path) (name : String) : List Request → Table × Disk → Table × Disk
  | [], state => state
  | request :: requests, state =>
      served root name requests ((serve root name request).outcome state).2

theorem served_append (root : Path) (name : String) (first second : List Request)
    (state : Table × Disk) :
    served root name (first ++ second) state =
      served root name second (served root name first state) := by
  induction first generalizing state with
  | nil => rfl
  | cons request first ih => exact ih _

/-- What a table stands for. -/
structure Holding where
  /-- The items behind those that were pruned. -/
  items : List Bytes
  /-- Bytes that are in the head before there is an item in it. -/
  left : Bytes
  isOpen : Bool

/-- What may be answered to a request by a table with these counters, from whose front `pruned`
items were pruned, and what it then stands for. -/
inductive Serves (pruned : Nat) (table : Table) :
    Holding → Request → Except Error Answer → Holding → Prop where
  /-- What was left in the head comes to be a part of the item that is put there. -/
  | append (items : List Bytes) (left : Bytes) {blob : Bytes} (h : table.HasRoom blob.length) :
      Serves pruned table ⟨items, left, true⟩ (.append (pruned + items.length) blob) (.ok .done)
        ⟨items ++ [(if table.overflows blob.length then [] else left) ++ blob], [], true⟩
  | refused (items : List Bytes) (left : Bytes) {blob : Bytes} (h : ¬table.HasRoom blob.length) :
      Serves pruned table ⟨items, left, true⟩ (.append (pruned + items.length) blob)
        (.error (table.refusal blob.length)) ⟨items, left, true⟩
  | tooLarge (holding : Holding) (item : Nat) {blob : Bytes} (h : offsetLimit ≤ blob.length) :
      Serves pruned table holding (.append item blob) (.error (.itemTooLarge blob.length)) holding
  | outOfSequence (items : List Bytes) (left : Bytes) {item : Nat} {blob : Bytes}
      (hblob : blob.length < offsetLimit) (h : item ≠ pruned + items.length) :
      Serves pruned table ⟨items, left, true⟩ (.append item blob)
        (.error (.sequence (pruned + items.length) item)) ⟨items, left, true⟩
  | retrieve {items : List Bytes} (left : Bytes) {n : Nat} {data : Bytes}
      (h : items[n]? = some data) :
      Serves pruned table ⟨items, left, true⟩ (.retrieve (pruned + n)) (.ok (.bytes data))
        ⟨items, left, true⟩
  | outside (items : List Bytes) (left : Bytes) {item : Nat}
      (h : pruned + items.length ≤ item ∨ item < pruned) :
      Serves pruned table ⟨items, left, true⟩ (.retrieve item)
        (.error (.outOfBounds item pruned (pruned + items.length))) ⟨items, left, true⟩
  | keepSome {items : List Bytes} (left : Bytes) {n : Nat} (hpos : 0 < n) (h : n < items.length) :
      Serves pruned table ⟨items, left, true⟩ (.truncate (pruned + n)) (.ok .done)
        ⟨items.take n, [], true⟩
  /-- With the last item cut away, as many bytes are left in the head as items were pruned. -/
  | keepNone {items : List Bytes} (left : Bytes) {left' : Bytes} (h : items ≠ [])
      (hleft : left'.length = pruned) :
      Serves pruned table ⟨items, left, true⟩ (.truncate pruned) (.ok .done) ⟨[], left', true⟩
  | keepAll {items : List Bytes} (left : Bytes) {count : Nat} (h : pruned + items.length ≤ count) :
      Serves pruned table ⟨items, left, true⟩ (.truncate count) (.ok .done) ⟨items, left, true⟩
  | intoPruned (items : List Bytes) (left : Bytes) {count : Nat} (h : count < pruned) :
      Serves pruned table ⟨items, left, true⟩ (.truncate count)
        (.error (.outOfBounds count pruned (pruned + items.length))) ⟨items, left, true⟩
  /-- Segments before the head may hold more than their items. -/
  | size (items : List Bytes) (left : Bytes) (n : Nat) :
      Serves pruned table ⟨items, left, true⟩ .size (.ok (.number n)) ⟨items, left, true⟩
  | sync (items : List Bytes) (left : Bytes) :
      Serves pruned table ⟨items, left, true⟩ .sync (.ok .done) ⟨items, left, true⟩
  | close (items : List Bytes) (left : Bytes) :
      Serves pruned table ⟨items, left, true⟩ .close (.ok .done) ⟨items, left, false⟩
  | closed (items : List Bytes) (left : Bytes) {request : Request}
      (hreopen : ∀ cap, request ≠ .reopen cap)
      (hblob : ∀ item blob, request = .append item blob → blob.length < offsetLimit) :
      Serves pruned table ⟨items, left, false⟩ request (.error .closed) ⟨items, left, false⟩
  | reopen (holding : Holding) (cap : Nat) :
      Serves pruned table holding (.reopen cap) (.ok .done)
        ⟨holding.items, holding.left, true⟩

/-- Only files of one table were changed. -/
def Confined (name : String) (place : Location) (disk disk' : Disk) : Prop :=
  ∃ changes, (∀ change ∈ changes, IsFileOf name change.name) ∧
    (disk.files.folder place).Fits changes ∧ disk' = disk.after place changes

theorem Confined.refl (name : String) (place : Location) (disk : Disk) :
    Confined name place disk disk :=
  ⟨[], by simp, trivial, rfl⟩

theorem Tidied.confined {name : String} {place : Location} {disk disk' : Disk}
    (h : Tidied name place disk disk') :
    Confined name place disk disk' := by
  obtain ⟨changes, hchanges, rfl⟩ := h
  exact ⟨changes, fun _ hmem => isFileOf_of_each_tidies hchanges hmem,
    fits_of_each_tidies hchanges, rfl⟩

/-- The table and its files stand for this holding. -/
structure Represents (names : String → Prop) (place : Location) (root : Path) (name : String)
    (pruned : Nat) (entries : List IndexEntry) (holding : Holding) (state : Table × Disk) :
    Prop where
  houses : state.2.files.Houses names root place
  steady : Steady (state.2.files.folder place) name entries
  pruned : (firstOf entries).offset.toNat = pruned
  items : holding.items = storedItems (state.2.files.folder place) name entries
  left : holding.left = leftIn (state.2.files.folder place) name entries
  whenOpen : holding.isOpen = true →
    ∃ cap, state.1 = opened state.2.files place root name cap entries
  whenClosed : holding.isOpen = false → state.1.index = none

/-- What a step leads to: the files stand for a holding again, and no others were changed. -/
structure Reached (names : String → Prop) (place : Location) (root : Path) (name : String)
    (pruned : Nat) (entries entries' : List IndexEntry) (holding' : Holding)
    (state state' : Table × Disk) : Prop where
  represents : Represents names place root name pruned entries' holding' state'
  confined : Confined name place state.2 state'.2
  climbs : Climbs entries → Climbs entries'

variable {names : String → Prop} {place : Location} {root : Path} {name : String} {pruned : Nat}
  {entries : List IndexEntry} {holding : Holding} {state : Table × Disk} {table : Table}
  {disk : Disk} {cap : Nat}

theorem Represents.reached (h : Represents names place root name pruned entries holding state) :
    Reached names place root name pruned entries entries holding state state :=
  ⟨h, .refl _ _ _, id⟩

theorem Represents.length_entries
    (h : Represents names place root name pruned entries holding state) :
    entries.length = holding.items.length + 1 :=
  length_of_storedItems h.steady.ne_nil h.items.symm

/-- The number of items that an open table counts. -/
theorem Represents.items_eq
    (h : Represents names place root name pruned entries holding state)
    (hopen : holding.isOpen = true) : state.1.items = pruned + holding.items.length := by
  obtain ⟨cap, hstate⟩ := h.whenOpen hopen
  rw [hstate, opened_items, h.pruned, h.length_entries, Nat.add_sub_cancel]

/-- A table that is opened takes the place of the one before. -/
theorem outcome_serve_reopen {table' : Table} {disk' : Disk}
    (hrun : (openIn root name cap).outcome disk = (.ok table', disk')) (table : Table) :
    (serve root name (.reopen cap)).outcome (table, disk) = (.ok .done, (table', disk')) := by
  unfold serve
  rw [Attempt.outcome_bind_ok (Attempt.outcome_onSecond_of hrun _),
    Attempt.outcome_bind_ok (Attempt.outcome_update _ _ _)]
  rfl

/-- A request that is carried out without an answer of its own. -/
theorem outcome_done {action : Action (Table × Disk) Unit} {answer : Except Error Unit}
    {state' : Table × Disk} (h : action.outcome state = (answer, state')) :
    (do
      action
      return Answer.done : Action (Table × Disk) Answer).outcome state =
        (answer.map fun _ => .done, state') := by
  rw [Attempt.outcome_bind, h]
  cases answer <;> rfl

/-! ### What a request leaves -/

theorem snd_serve_append (root : Path) (name : String) (item : Nat) (blob : Bytes)
    (state : Table × Disk) :
    ((serve root name (.append item blob)).outcome state).2 =
      ((append item blob).outcome state).2 :=
  congrArg Prod.snd (outcome_done (Prod.ext rfl rfl))

theorem snd_serve_truncate (root : Path) (name : String) (items : Nat) (state : Table × Disk) :
    ((serve root name (.truncate items)).outcome state).2 = ((truncate items).outcome state).2 :=
  congrArg Prod.snd (outcome_done (Prod.ext rfl rfl))

theorem snd_serve_close (root : Path) (name : String) (state : Table × Disk) :
    ((serve root name .close).outcome state).2 = (close.outcome state).2 :=
  congrArg Prod.snd (outcome_done (Prod.ext rfl rfl))

/-- Whether the request only reads. -/
def Request.reads : Request → Bool
  | .retrieve _ | .size | .sync => true
  | .append .. | .truncate _ | .close | .reopen _ => false

theorem onlyReads_serve (root : Path) (name : String) {request : Request}
    (h : request.reads = true) : OnlyReads (serve root name request) := by
  cases request with
  | retrieve item =>
      exact Attempt.respects_bind (onlyReads_retrieve item) fun _ => Attempt.respects_pure _
  | size => exact Attempt.respects_bind onlyReads_size fun _ => Attempt.respects_pure _
  | sync => exact Attempt.respects_bind onlyReads_sync fun _ => Attempt.respects_pure _
  | append | truncate | close | reopen => simp [Request.reads] at h

/-! ### Changes -/

section step

variable (hnames : ∀ file, IsFileOf name file → names file)
include hnames

theorem Represents.names_of_isFileWithin
    (h : Represents names place root name pruned entries holding state) {file : String}
    (hfile : IsFileWithin name (firstOf entries).segment.toNat (lastOf entries).segment.toNat
      file) : names file :=
  hnames _ (hfile.isFileOf h.steady.head_le)

/-- An item for which there is a place is added. -/
theorem Represents.exists_append {items : List Bytes} {left blob : Bytes}
    (h : Represents names place root name pruned entries ⟨items, left, true⟩ (table, disk))
    (hroom : table.HasRoom blob.length) :
    ∃ entries' state', (append (pruned + items.length) blob).outcome (table, disk) =
        (.ok (), state') ∧
      Reached names place root name pruned entries entries'
        ⟨items ++ [(if table.overflows blob.length then [] else left) ++ blob], [], true⟩
        (table, disk) state' := by
  obtain ⟨cap, htable⟩ : ∃ cap, table = opened disk.files place root name cap entries :=
    h.whenOpen rfl
  have hcount : table.items = pruned + items.length := h.items_eq rfl
  have hindexed : Indexed (disk.files.folder place) name entries := h.steady.toIndexed
  have hhead : table.headId ≤ lastSegmentId := by
    rw [htable, opened_headId]
    exact hindexed.head_le
  have hname : table.name = name := by rw [htable, opened_name]
  have hwithin : ∀ file, IsFileWithin name table.headId (table.slot blob.length).1 file →
      IsFileOf name file := fun _ hfile => hfile.isFileOf (hroom.slot_le hhead)
  obtain ⟨hintact, hitems⟩ := hindexed.appending htable hroom
  generalize hdisk' : disk.after place (appending (disk.files.folder place) table blob) = disk'
  obtain ⟨hhouses', hfolder⟩ := houses_and_folder_appending htable h.houses
    (fun file hfile => hnames file (hwithin file hfile)) hindexed hdisk'.symm
  rw [← hfolder] at hintact hitems
  have hrun := outcome_append_ok htable h.houses
    (fun file hfile => hnames file (hwithin file hfile))
    hindexed hroom hdisk'.symm
  have hlong : 1 < (entries ++ [table.entryFor blob.length]).length := by
    have hpos := List.length_pos_iff.2 hindexed.ne_nil
    simp only [List.length_append, List.length_singleton]
    omega
  rw [hcount] at hrun
  refine ⟨_, _, hrun, ⟨hhouses', hintact.steady, ?_, ?_, ?_, fun _ => ⟨cap, rfl⟩, by simp⟩,
    ⟨_, fun change hmem => ?_, (after_appending htable hindexed blob).1, hdisk'.symm⟩,
    fun hclimbs => hindexed.climbs_appending htable hclimbs hroom⟩
  · rw [firstOf_append hindexed.ne_nil, h.pruned]
  · rw [hitems, ← h.items, ← h.left]
  · rw [hintact.leftIn_eq_nil hlong]
  · exact hwithin _ (hname ▸ isFileWithin_of_mem_appending hmem)

/-- A cut that leaves some items pruned keeps the ones before it. -/
theorem Represents.exists_truncate {items : List Bytes} {left : Bytes} {n : Nat}
    (h : Represents names place root name pruned entries ⟨items, left, true⟩ (table, disk))
    (hn : n < items.length) :
    ∃ entries' left' state', (truncate (pruned + n)).outcome (table, disk) = (.ok (), state') ∧
      (0 < n → left' = []) ∧ (n = 0 → left'.length = pruned) ∧
      Reached names place root name pruned entries entries' ⟨items.take n, left', true⟩
        (table, disk) state' := by
  obtain ⟨cap, htable⟩ : ∃ cap, table = opened disk.files place root name cap entries :=
    h.whenOpen rfl
  have hlength : entries.length = items.length + 1 := h.length_entries
  have hlong : n + 1 < entries.length := by omega
  have hintact := h.steady.intact (by omega)
  have hwithin : ∀ file, IsFileWithin name (firstOf entries).segment.toNat
      (lastOf entries).segment.toNat file → names file :=
    fun _ hfile => h.names_of_isFileWithin hnames hfile
  have hfits := fits_cutting hintact hlong
  obtain ⟨hintact', hagree⟩ := hintact.cutting hlong
  generalize hdisk' : disk.after place (cutting name entries n) = disk'
  have hchanges : ∀ change ∈ cutting name entries n, IsFileOf name change.name :=
    fun change hmem => (isFileWithin_of_mem_cutting hintact hlong hmem).isFileOf hintact.head_le
  obtain ⟨hhouses', hfolder⟩ := Disk.houses_and_folder_after h.houses
    (fun change hmem => hnames _ (hchanges change hmem)) hfits
  rw [hdisk'] at hhouses' hfolder
  rw [← hfolder] at hintact' hagree
  have hrun := outcome_truncate htable h.houses hwithin hintact hlong hdisk'.symm
  rw [h.pruned] at hrun
  have htake : (entries.take (n + 1)).length = n + 1 := by
    rw [List.length_take]
    omega
  have hitems : storedItems (disk'.files.folder place) name (entries.take (n + 1)) =
      items.take n := by
    have hbacked := hintact.backed.take n
    rw [← grounded_take] at hbacked
    rw [← storedItems_grounded, hbacked.storedItems_eq hagree, storedItems_grounded,
      storedItems_take, ← h.items]
  refine ⟨_, leftIn (disk'.files.folder place) name (entries.take (n + 1)), _, hrun,
    fun hpos => ?_, fun hzero => ?_, ⟨hhouses', hintact'.steady, ?_, hitems.symm, rfl,
      fun _ => ⟨cap, rfl⟩, by simp⟩, ⟨_, hchanges, hfits, hdisk'.symm⟩,
      fun hclimbs => hclimbs.take _⟩
  · exact hintact'.leftIn_eq_nil (by omega)
  · rw [hintact'.length_leftIn (by omega), firstOf_take, h.pruned]
  · rw [firstOf_take, h.pruned]

theorem Represents.outcome_reopen
    (h : Represents names place root name pruned entries holding state) (cap : Nat) :
    (serve root name (.reopen cap)).outcome state =
      (.ok .done, (opened state.2.files place root name cap entries, state.2)) := by
  have hrun := h.steady.outcome_openIn h.houses.shows
    (fun _ hfile => h.names_of_isFileWithin hnames hfile) cap
  rw [← opened_eq_tableOf] at hrun
  exact outcome_serve_reopen hrun state.1

theorem Represents.exists_reopen
    (h : Represents names place root name pruned entries holding state) (cap : Nat) :
    ∃ state', (serve root name (.reopen cap)).outcome state = (.ok .done, state') ∧
      state'.2 = state.2 ∧
      Reached names place root name pruned entries entries ⟨holding.items, holding.left, true⟩
        state state' :=
  ⟨_, h.outcome_reopen hnames cap, rfl, ⟨h.houses, h.steady, h.pruned, h.items, h.left,
    fun _ => ⟨cap, rfl⟩, by simp⟩, .refl _ _ _, id⟩

theorem exists_reopen_of_missing (hhouses : disk.files.Houses names root place)
    (hindex : disk.files.folder place (indexFileName name) = none) (cap : Nat) (table : Table) :
    ∃ state', (serve root name (.reopen cap)).outcome (table, disk) = (.ok .done, state') ∧
      Represents names place root name 0 [.sentinel] ⟨[], [], true⟩ state' ∧
      Confined name place disk state'.2 := by
  obtain ⟨disk', htidied, hwhole, -, hrun⟩ :=
    (recovers_of_index_missing hindex).exists_openIn cap hhouses hnames
  have hhouses' := (htidied.houses_and_folder hhouses hnames).1
  exact ⟨_, outcome_serve_reopen hrun table, ⟨hhouses', hwhole.intact.steady, rfl, rfl,
    hwhole.leftIn_eq_nil.symm, fun _ => ⟨cap, rfl⟩, by simp⟩, htidied.confined⟩

end step

/-! ### Requests that change nothing -/

theorem outcome_serve_of_closed (h : table.index = none) {request : Request}
    (hreopen : ∀ cap, request ≠ .reopen cap)
    (hblob : ∀ item blob, request = .append item blob → blob.length < offsetLimit) (root : Path)
    (name : String) (disk : Disk) :
    (serve root name request).outcome (table, disk) = (.error .closed, (table, disk)) := by
  have hrefuse := outcome_openIndex_of_closed h disk
  cases request with
  | append item blob =>
      unfold serve
      rw [Attempt.outcome_bind_error (outcome_append_of_closed h (hblob item blob rfl) item disk)]
  | retrieve item =>
      unfold serve retrieve
      rw [Attempt.outcome_bind_error (Attempt.outcome_bind_error hrefuse _)]
  | truncate items =>
      unfold serve truncate
      rw [Attempt.outcome_bind_error (Attempt.outcome_bind_error hrefuse _)]
  | size =>
      unfold serve size
      rw [Attempt.outcome_bind_error (Attempt.outcome_bind_error hrefuse _)]
  | sync =>
      unfold serve sync
      rw [Attempt.outcome_bind_error (Attempt.outcome_bind_error hrefuse _)]
  | close =>
      unfold serve close
      rw [Attempt.outcome_bind_error (Attempt.outcome_bind_error hrefuse _)]
  | reopen cap => exact absurd rfl (hreopen cap)

theorem exists_serve_of_closed (h : table.index = none) {request : Request}
    (hreopen : ∀ cap, request ≠ .reopen cap) (pruned : Nat) (items : List Bytes) (left : Bytes)
    (root : Path) (name : String) (disk : Disk) :
    ∃ answer, (serve root name request).outcome (table, disk) = (answer, (table, disk)) ∧
      Serves pruned table ⟨items, left, false⟩ request answer ⟨items, left, false⟩ := by
  by_cases hlarge : ∃ item blob, request = .append item blob ∧ offsetLimit ≤ blob.length
  · obtain ⟨item, blob, rfl, hlarge⟩ := hlarge
    exact ⟨_, outcome_done (outcome_append_tooLarge hlarge item (table, disk)),
      .tooLarge _ item hlarge⟩
  · have hblob : ∀ item blob, request = .append item blob → blob.length < offsetLimit :=
      fun item blob heq => Nat.lt_of_not_le fun hle => hlarge ⟨item, blob, heq, hle⟩
    exact ⟨_, outcome_serve_of_closed h hreopen hblob root name disk,
      .closed items left hreopen hblob⟩

theorem Represents.exists_retrieve {items : List Bytes} {left : Bytes}
    (h : Represents names place root name pruned entries ⟨items, left, true⟩ (table, disk))
    (item : Nat) :
    ∃ answer, (retrieve item).outcome (table, disk) = (answer, (table, disk)) ∧
      Serves pruned table ⟨items, left, true⟩ (.retrieve item) (answer.map .bytes)
        ⟨items, left, true⟩ := by
  obtain ⟨cap, htable⟩ : ∃ cap, table = opened disk.files place root name cap entries :=
    h.whenOpen rfl
  have hlength : entries.length - 1 = items.length := by
    have hlength : entries.length = items.length + 1 := h.length_entries
    omega
  have hitems : items = storedItems (disk.files.folder place) name entries := h.items
  rw [opened_eq_tableOf] at htable
  by_cases hinside : pruned ≤ item ∧ item < pruned + items.length
  · obtain ⟨n, rfl⟩ := Nat.exists_eq_add_of_le hinside.1
    have hn : n < items.length := by omega
    obtain ⟨data, hitem⟩ : ∃ data, items[n]? = some data := ⟨_, List.getElem?_eq_getElem hn⟩
    have hread := h.steady.toIndexed.outcome_retrieve
      (FileSystem.holds_folder disk.files (fun _ => True) place) (fun _ _ => trivial) root cap
      (hitems ▸ hitem)
    rw [h.pruned, ← htable] at hread
    exact ⟨_, hread, .retrieve left hitem⟩
  · have houtside : (firstOf entries).offset.toNat + (entries.length - 1) ≤ item ∨
        item < (firstOf entries).offset.toNat := by
      rw [h.pruned, hlength]
      omega
    have hread := outcome_retrieve_outside (disk.files.folder place) (disk.files.number place) root
      name cap entries disk houtside
    rw [h.pruned, hlength, ← htable] at hread
    exact ⟨_, hread, .outside items left (by omega)⟩

/-! ### One step -/

section step

variable (hnames : ∀ file, IsFileOf name file → names file)
include hnames

theorem Represents.serves_append {items : List Bytes} {left : Bytes}
    (h : Represents names place root name pruned entries ⟨items, left, true⟩ (table, disk))
    (item : Nat) (blob : Bytes) :
    ∃ answer holding' entries' state',
      (append item blob).outcome (table, disk) = (answer, state') ∧
      Serves pruned table ⟨items, left, true⟩ (.append item blob) (answer.map fun _ => .done)
        holding' ∧
      Reached names place root name pruned entries entries' holding' (table, disk) state' := by
  have hcount : table.items = pruned + items.length := h.items_eq rfl
  obtain ⟨index, hindex⟩ : ∃ index, table.index = some index := by
    obtain ⟨cap, htable⟩ : ∃ cap, table = opened disk.files place root name cap entries :=
      h.whenOpen rfl
    exact ⟨_, htable ▸ opened_index _ _ _ _ _ _⟩
  by_cases hlarge : offsetLimit ≤ blob.length
  · exact ⟨_, _, _, _, outcome_append_tooLarge hlarge item (table, disk),
      .tooLarge _ item hlarge, h.reached⟩
  by_cases hitem : item = pruned + items.length
  · subst hitem
    by_cases hroom : table.HasRoom blob.length
    · obtain ⟨entries', state', hrun, hreached⟩ := h.exists_append hnames hroom
      exact ⟨_, _, _, _, hrun, .append items left hroom, hreached⟩
    · have hrun : (append table.items blob).outcome (table, disk) =
          (.error (table.refusal blob.length), (table, disk)) := outcome_append_error hindex hroom
      rw [hcount] at hrun
      exact ⟨_, _, _, _, hrun, .refused items left hroom, h.reached⟩
  · have hblob := Nat.lt_of_not_le hlarge
    have hrun := outcome_append_of_ne hindex hblob (hcount ▸ hitem) disk
    rw [hcount] at hrun
    exact ⟨_, _, _, _, hrun, .outOfSequence items left hblob hitem, h.reached⟩

theorem Represents.serves_truncate {items : List Bytes} {left : Bytes}
    (h : Represents names place root name pruned entries ⟨items, left, true⟩ (table, disk))
    (count : Nat) :
    ∃ answer holding' entries' state',
      (truncate count).outcome (table, disk) = (answer, state') ∧
      Serves pruned table ⟨items, left, true⟩ (.truncate count) (answer.map fun _ => .done)
        holding' ∧
      Reached names place root name pruned entries entries' holding' (table, disk) state' := by
  have hcount : table.items = pruned + items.length := h.items_eq rfl
  obtain ⟨index, hindex, hoffset⟩ : ∃ index, table.index = some index ∧
      table.itemOffset = pruned := by
    obtain ⟨cap, htable⟩ : ∃ cap, table = opened disk.files place root name cap entries :=
      h.whenOpen rfl
    rw [htable, opened_itemOffset, h.pruned]
    exact ⟨_, rfl, rfl⟩
  by_cases hall : pruned + items.length ≤ count
  · exact ⟨_, _, _, _, outcome_truncate_of_le hindex (hcount ▸ hall), .keepAll left hall,
      h.reached⟩
  by_cases hpruned : count < pruned
  · have hrun : (truncate count).outcome (table, disk) =
        (.error (.outOfBounds count table.itemOffset table.items), (table, disk)) :=
      outcome_truncate_of_lt hindex (by omega) (by omega)
    rw [hoffset, hcount] at hrun
    exact ⟨_, _, _, _, hrun, .intoPruned items left hpruned, h.reached⟩
  obtain ⟨n, rfl⟩ := Nat.exists_eq_add_of_le (Nat.le_of_not_lt hpruned)
  obtain ⟨entries', left', state', hrun, hsome, hnone, hreached⟩ :=
    h.exists_truncate (n := n) hnames (by omega)
  refine ⟨_, _, _, _, hrun, ?_, hreached⟩
  rcases Nat.eq_zero_or_pos n with rfl | hpos
  · have hne : items ≠ [] := List.ne_nil_of_length_pos (by omega)
    exact .keepNone left hne (hnone rfl)
  · rw [hsome hpos]
    exact .keepSome left hpos (by omega)

omit hnames in
theorem Represents.serves_size {items : List Bytes} {left : Bytes}
    (h : Represents names place root name pruned entries ⟨items, left, true⟩ (table, disk)) :
    ∃ n, size.outcome (table, disk) = (.ok n, (table, disk)) := by
  obtain ⟨cap, htable⟩ : ∃ cap, table = opened disk.files place root name cap entries :=
    h.whenOpen rfl
  rw [htable]
  exact ⟨_, outcome_size h.steady.toIndexed⟩

omit hnames in
theorem Represents.serves_close {items : List Bytes} {left : Bytes}
    (h : Represents names place root name pruned entries ⟨items, left, true⟩ (table, disk)) :
    ∃ state', close.outcome (table, disk) = (.ok (), state') ∧
      Reached names place root name pruned entries entries ⟨items, left, false⟩ (table, disk)
        state' := by
  obtain ⟨cap, htable⟩ : ∃ cap, table = opened disk.files place root name cap entries :=
    h.whenOpen rfl
  refine ⟨_, outcome_close (by rw [htable]; simp) disk,
    ⟨h.houses, h.steady, h.pruned, h.items, h.left, by simp, fun _ => rfl⟩, .refl _ _ _, id⟩

/-- A table answers to a request as it may, and then stands for what comes of it. -/
theorem Represents.exists_serve
    (h : Represents names place root name pruned entries holding state) (request : Request) :
    ∃ answer holding' entries' state', (serve root name request).outcome state = (answer, state') ∧
      Serves pruned state.1 holding request answer holding' ∧
      Reached names place root name pruned entries entries' holding' state state' := by
  by_cases hreopen : ∃ cap, request = .reopen cap
  · obtain ⟨cap, rfl⟩ := hreopen
    obtain ⟨state', hrun, -, hreached⟩ := h.exists_reopen hnames cap
    exact ⟨_, _, _, _, hrun, .reopen holding cap, hreached⟩
  have hother : ∀ cap, request ≠ .reopen cap := fun cap heq => hreopen ⟨cap, heq⟩
  obtain ⟨items, left, isOpen⟩ := holding
  obtain ⟨table, disk⟩ := state
  cases isOpen with
  | false =>
      obtain ⟨answer, hrun, hserves⟩ :=
        exists_serve_of_closed (h.whenClosed rfl) hother pruned items left root name disk
      exact ⟨_, _, _, _, hrun, hserves, h.reached⟩
  | true =>
      cases request with
      | reopen cap => exact absurd rfl (hother cap)
      | append item blob =>
          obtain ⟨answer, holding', entries', state', hrun, hserves, hreached⟩ :=
            h.serves_append hnames item blob
          exact ⟨_, _, _, _, outcome_done hrun, hserves, hreached⟩
      | retrieve item =>
          obtain ⟨answer, hrun, hserves⟩ := h.exists_retrieve item
          refine ⟨_, _, _, _, ?_, hserves, h.reached⟩
          unfold serve
          rw [Attempt.outcome_bind, hrun]
          cases answer <;> rfl
      | truncate items =>
          obtain ⟨answer, holding', entries', state', hrun, hserves, hreached⟩ :=
            h.serves_truncate hnames items
          exact ⟨_, _, _, _, outcome_done hrun, hserves, hreached⟩
      | size =>
          obtain ⟨n, hrun⟩ := h.serves_size
          refine ⟨_, _, _, _, ?_, .size items left n, h.reached⟩
          unfold serve
          rw [Attempt.outcome_bind_ok hrun]
          rfl
      | sync =>
          obtain ⟨cap, htable⟩ : ∃ cap, table = opened disk.files place root name cap entries :=
            h.whenOpen rfl
          refine ⟨_, _, _, _, ?_, .sync items left, h.reached⟩
          unfold serve sync
          rw [Attempt.outcome_bind_ok (Attempt.outcome_bind_ok
            (outcome_openIndex (by rw [htable, opened_index]) disk) _)]
          rfl
      | close =>
          obtain ⟨state', hrun, hreached⟩ := h.serves_close
          exact ⟨_, _, _, _, outcome_done hrun, .close items left, hreached⟩

/-! ### A whole run -/

omit hnames

/-- What is seen of a table that stands for a holding: its counters while it is open, and what an
audit says about its files. -/
structure Displays (pruned : Nat) (root : Path) (name : String) (holding : Holding)
    (state : Table × Disk) : Prop where
  items : holding.isOpen = true → state.1.items = pruned + holding.items.length
  itemOffset : holding.isOpen = true → state.1.itemOffset = pruned
  headBytes : holding.isOpen = true → holding.items = [] →
    state.1.headBytes = holding.left.length
  /-- A head that holds less than as many bytes as items were pruned is found too short. -/
  audit : ∃ tail head bytes, Audit.table state.2.files root name = .ok ⟨name,
    pruned + holding.items.length, tail, head, bytes,
    if holding.items = [] ∧ holding.left.length ≠ pruned then
      [.headLength head holding.left.length pruned] else []⟩

/-- The requests are answered one after the other as they may, and at each point the table displays
what it stands for. -/
inductive Follows (pruned : Nat) (root : Path) (name : String) :
    Holding → Table × Disk → List Request → Prop where
  | nil {holding : Holding} {state : Table × Disk}
      (hdisplays : Displays pruned root name holding state) :
      Follows pruned root name holding state []
  | cons {holding holding' : Holding} {state state' : Table × Disk} {request : Request}
      {requests : List Request} {answer : Except Error Answer}
      (hdisplays : Displays pruned root name holding state)
      (hrun : (serve root name request).outcome state = (answer, state'))
      (hserves : Serves pruned state.1 holding request answer holding')
      (hrest : Follows pruned root name holding' state' requests) :
      Follows pruned root name holding state (request :: requests)

theorem Represents.left_eq
    (h : Represents names place root name pruned entries holding state)
    (hitems : holding.items = []) :
    holding.left = segmentBytes (state.2.files.folder place) name (lastOf entries).segment.toNat ∧
      (lastOf entries).offset.toNat = pruned := by
  obtain ⟨first, rfl⟩ := List.length_eq_one_iff.1 (by rw [h.length_entries, hitems]; rfl)
  exact ⟨h.left, h.pruned⟩

theorem Represents.headFindings_eq
    (h : Represents names place root name pruned entries holding state) :
    Audit.headFindings (state.2.files.folder place) name entries =
      if holding.items = [] ∧ holding.left.length ≠ pruned then
        [.headLength (lastOf entries).segment.toNat holding.left.length pruned] else [] := by
  unfold Audit.headFindings
  by_cases hitems : holding.items = []
  · obtain ⟨hleft, hlast⟩ := h.left_eq hitems
    rw [← hleft, hlast]
    simp only [hitems, true_and, ite_not, ne_eq]
  · have hpos := List.length_pos_iff.2 hitems
    have hlength := h.length_entries
    rw [if_pos (h.steady.intact (by omega)).headLength, if_neg fun hnone => hitems hnone.1]

include hnames

theorem Represents.displays
    (h : Represents names place root name pruned entries holding state) :
    Displays pruned root name holding state := by
  have haudit := Audit.table_eq h.steady.toIndexed h.houses.shows fun _ hfile =>
    h.names_of_isFileWithin hnames hfile
  rw [h.pruned, h.length_entries, Nat.add_sub_cancel, h.headFindings_eq] at haudit
  refine ⟨fun hopen => h.items_eq hopen, fun hopen => ?_, fun hopen hitems => ?_, _, _, _, haudit⟩
  · obtain ⟨cap, hstate⟩ := h.whenOpen hopen
    rw [hstate, opened_itemOffset, h.pruned]
  · obtain ⟨cap, hstate⟩ := h.whenOpen hopen
    rw [hstate, opened_headBytes, (h.left_eq hitems).1]

theorem Represents.follows
    (h : Represents names place root name pruned entries holding state)
    (requests : List Request) : Follows pruned root name holding state requests := by
  induction requests generalizing entries holding state with
  | nil => exact .nil (h.displays hnames)
  | cons request requests ih =>
      obtain ⟨answer, holding', entries', state', hrun, hserves, hreached⟩ :=
        h.exists_serve hnames request
      exact .cons (h.displays hnames) hrun hserves (ih hreached.represents)

/-- A table whose files are steady is the list of its items, numbered from the count of pruned ones,
but for what is left in the head when the last of them is cut away. -/
theorem follows_of_steady (hhouses : disk.files.Houses names root place)
    (h : Steady (disk.files.folder place) name entries) (hclosed : table.index = none)
    (requests : List Request) :
    Follows (firstOf entries).offset.toNat root name
      ⟨storedItems (disk.files.folder place) name entries,
        leftIn (disk.files.folder place) name entries, false⟩ (table, disk) requests :=
  Represents.follows hnames
    ⟨hhouses, h, rfl, rfl, rfl, by simp, fun _ => hclosed⟩ requests

end step

/-! ### The last item cut away -/

/-- A table before it is opened. -/
def unopened (root : Path) (name : String) : Table where
  dir := root
  name := name
  cap := 0
  items := 0
  headId := 0
  headBytes := 0
  tailId := 0
  itemOffset := 0
  index := none
  segments := []

/-- The files of a table with these entries, all of whose items are in the first segment. -/
def oneSegment (entries : List IndexEntry) (data : Bytes) : FileSystem :=
  ofListing [(indexFileName Column.hashes.name, encodeAll entries),
    (segmentFileName Column.hashes.name 0, data)]

/-- Of three items two were pruned: the files are steady, and what becomes of the third one when it
is cut away and the next is appended is as it may be. -/
theorem follows_of_steady_oneSegment :
    Steady ((oneSegment [⟨0, 2⟩, ⟨0, 1⟩] [170]).folder ["a"]) Column.hashes.name
        [⟨0, 2⟩, ⟨0, 1⟩] ∧
      Follows 2 ⟨["", "a"]⟩ Column.hashes.name ⟨[[170]], [], false⟩
        (unopened ⟨["", "a"]⟩ Column.hashes.name,
          Disk.ofFiles (oneSegment [⟨0, 2⟩, ⟨0, 1⟩] [170]))
        [.reopen 100, .retrieve 2, .truncate 2, .close, .reopen 100, .append 2 [187],
          .retrieve 2] := by
  have hfolder : (oneSegment [⟨0, 2⟩, ⟨0, 1⟩] [170]).folder ["a"] =
      fun file => List.lookup file [(indexFileName Column.hashes.name,
        encodeAll [⟨0, 2⟩, ⟨0, 1⟩]), (segmentFileName Column.hashes.name 0, [170])] :=
    folder_ofListing _
  have hsteady : Steady ((oneSegment [⟨0, 2⟩, ⟨0, 1⟩] [170]).folder ["a"]) Column.hashes.name
      [⟨0, 2⟩, ⟨0, 1⟩] := by
    rw [hfolder]
    refine ⟨⟨by decide +kernel, by decide +kernel, ⟨by decide, rfl, ?_, ?_, ?_, ?_⟩⟩,
      .inl (by decide +kernel)⟩
    · simp [grounded, IsStorable]
    · simp [grounded, Precedes]
    · decide +kernel
    · intro id hlow hlt
      simp [grounded, lastOf, firstOf] at hlow hlt
  refine ⟨hsteady, ?_⟩
  have hhouses : (Disk.ofFiles (oneSegment [⟨0, 2⟩, ⟨0, 1⟩] [170])).files.Houses
      Archive.IsFile ⟨["", "a"]⟩ ["a"] := Archive.houses_ofListing _
  have hclosed : (unopened ⟨["", "a"]⟩ Column.hashes.name).index = none := rfl
  have hfollows := follows_of_steady (fun _ => Archive.isFile_of_isFileOf) hhouses hsteady hclosed
    [.reopen 100, .retrieve 2, .truncate 2, .close, .reopen 100, .append 2 [187], .retrieve 2]
  have hitems : storedItems ((oneSegment [⟨0, 2⟩, ⟨0, 1⟩] [170]).folder ["a"])
      Column.hashes.name [⟨0, 2⟩, ⟨0, 1⟩] = [[170]] := by
    rw [hfolder]
    decide +kernel
  have hleft : leftIn ((oneSegment [⟨0, 2⟩, ⟨0, 1⟩] [170]).folder ["a"])
      Column.hashes.name [⟨0, 2⟩, ⟨0, 1⟩] = [] := by
    rw [hfolder]
    decide +kernel
  change Follows 2 _ _ ⟨storedItems ((oneSegment _ _).folder ["a"]) _ _,
    leftIn ((oneSegment _ _).folder ["a"]) _ _, false⟩ _ _ at hfollows
  rwa [hitems, hleft] at hfollows

/-- Of three items two were pruned.  When the third one is cut away, two bytes are left in the head,
and the item that is then appended as one byte is answered as three.  Without the third item, the
head that opening leaves empty is found too short. -/
theorem exists_left_before_item :
    ((do
        let _ ← serve ⟨["", "a"]⟩ Column.hashes.name (.reopen 100)
        serve ⟨["", "a"]⟩ Column.hashes.name (.truncate 2) :
          Action (Table × Disk) Answer).outcome
        (unopened ⟨["", "a"]⟩ Column.hashes.name,
          Disk.ofFiles (oneSegment [⟨0, 2⟩, ⟨0, 1⟩] [170]))).2.1.headBytes = 2 ∧
      ((do
        let _ ← serve ⟨["", "a"]⟩ Column.hashes.name (.reopen 100)
        let _ ← serve ⟨["", "a"]⟩ Column.hashes.name (.truncate 2)
        let _ ← serve ⟨["", "a"]⟩ Column.hashes.name (.append 2 [187])
        serve ⟨["", "a"]⟩ Column.hashes.name (.retrieve 2) :
          Action (Table × Disk) Answer).outcome
        (unopened ⟨["", "a"]⟩ Column.hashes.name,
          Disk.ofFiles (oneSegment [⟨0, 2⟩, ⟨0, 1⟩] [170]))).1 = .ok (.bytes [170, 0, 187]) ∧
      Audit.table ((serve ⟨["", "a"]⟩ Column.hashes.name (.reopen 100)).outcome
        (unopened ⟨["", "a"]⟩ Column.hashes.name,
          Disk.ofFiles (oneSegment [⟨0, 2⟩] []))).2.2.files ⟨["", "a"]⟩ Column.hashes.name =
        .ok ⟨Column.hashes.name, 2, 0, 0, 0, [.headLength 0 0 2]⟩ := by
  refine ⟨?_, ?_, ?_⟩ <;> decide +kernel

end BlockArchive.Table
