import BlockArchive.Proofs.Archive.Files
import BlockArchive.Proofs.Listing
import BlockArchive.Proofs.Table.Indexing

/-! # Entries that are read back

An entry that an append has written is read from its place in the index as it was written, for as
long as the index reaches that far: whatever is asked of the table in between, also if it fails, and
also over closing and opening again.

* **`Working`**: a table in use on a disk that nobody else has touched.  Its index starts with the
  entry that tells how many items were pruned, so that opening it again counts from there.
* **One request** leaves the table at work and moves its index (`Working.serve`); so what the index
  starts with stays there through any number of requests (`Working.exists_keeps`).
* **Result.** `entries_read_back` puts this together with what the form of an entry tells of it, and
  with the ids that are written (`InUse.storesEntry`). -/

namespace BlockArchive.Table

open IndexEntry FileSystem Attempt

variable {names : String → Prop} {place : Location} {root : Path} {name : String} {cap : Nat}
  {table table' : Table} {disk disk' : Disk} {data data' kept : Bytes} {item n : Nat} {blob : Bytes}

/-! ### One request -/

theorem Moves.keeps (h : Moves table data table' data') (hkept : kept <+: data)
    (hlength : kept.length = position (n + 1)) (hcount : table.itemOffset + n ≤ table.items)
    (hreaches : position (n + 1) ≤ data'.length) :
    kept <+: data' ∧ table.itemOffset + n ≤ table'.items := by
  have hle : position (n + 1) ≤ data.length := hlength ▸ hkept.length_le
  have htake : ∀ data'' : Bytes, data''.take (position (n + 1)) = data.take (position (n + 1)) →
      kept <+: data'' := by
    intro data'' heq
    rw [List.prefix_iff_eq_take, hlength, heq, ← hlength]
    exact List.prefix_iff_eq_take.1 hkept
  cases h with
  | stays hitems => exact ⟨hkept, hitems ▸ hcount⟩
  | puts entry hitems =>
      refine ⟨htake _ (Bytes.take_overwrite (position_le_position ?_) hle _), ?_⟩
      · omega
      · omega
  | cuts m hitems =>
      rw [Bytes.length_resize] at hreaches
      have hn : n + 1 ≤ m + 1 := Nat.le_of_mul_le_mul_right hreaches (by decide)
      exact ⟨htake _ (Bytes.take_resize hreaches hle), by omega⟩

theorem Moves.width_le (h : Moves table data table' data') (hle : width ≤ data.length) :
    width ≤ data'.length := by
  cases h with
  | stays => exact hle
  | puts entry =>
      have hbegins := (Bytes.begins_overwrite data
        (position (table.items - table.itemOffset + 1)) entry.encode_ne_nil).length_le
      rw [List.length_append, length_encode] at hbegins
      omega
  | cuts m =>
      rw [Bytes.length_resize, position_succ]
      omega

/-- A table in use on a disk that nobody else has touched.  Its index starts with the entry that
tells how many items were pruned. -/
structure Working (names : String → Prop) (place : Location) (root : Path) (name : String)
    (data : Bytes) (table : Table) (disk : Disk) : Prop
    extends AtHome names place root name data table disk where
  inUse : InUse root name table
  begins : ∃ first, first.length = width ∧ first <+: data ∧
    (decode first).offset.toNat = table.itemOffset
  itemOffset_le : table.itemOffset ≤ table.items

theorem Working.exists_reopens (h : Working names place root name data table disk)
    {answer : Except Error Table}
    (hrun : (openIn root name cap).outcome disk = (answer, disk')) :
    ∃ n, Disk.Keeps names (IsFileOf name) root place disk disk' ∧
      disk'.files.folder place (indexFileName name) = some (data.resize (position (n + 1))) ∧
      ∀ table', answer = .ok table' →
        AtHome names place root name (data.resize (position (n + 1))) table' disk' ∧
          table'.itemOffset = table.itemOffset ∧ table'.items = table.itemOffset + n := by
  obtain ⟨first, hfirst, ⟨rest, rfl⟩, hoffset⟩ := h.begins
  have hentries : Audit.entries (first ++ rest) = decode first :: Audit.entries rest :=
    Audit.entries_of_width_append hfirst
  have hall : written (disk.files.folder place) name = Audit.entries (first ++ rest) := by
    rw [written_eq h.indexed, if_neg (by simp [hentries])]
  obtain ⟨n, hn, hreopens⟩ := Table.exists_reopens h.lodges h.names_index hall.symm hrun
  obtain ⟨hle, hdata⟩ := Audit.encodeAll_take_entries hn
  have hindexed := hreopens.indexed
  have hopened := hreopens.opened
  rw [hdata, ← Bytes.resize_of_le hle] at hindexed hopened
  refine ⟨n, hreopens.keeps, hindexed, fun table' hanswer => ?_⟩
  obtain ⟨hhome, hoffset', hitems⟩ := hopened table' hanswer
  rw [hentries, firstOf_cons, hoffset] at hoffset'
  exact ⟨hhome, hoffset', hoffset' ▸ hitems⟩

theorem Working.exists_moves (h : Working names place root name data table disk)
    {request : Request} (hsteps : Steps root name table disk request table' disk') :
    ∃ data', AtHome names place root name data' table' disk' ∧
      table'.itemOffset = table.itemOffset ∧ Moves table data table' data' := by
  cases hsteps with
  | rests => exact ⟨data, h.toAtHome, rfl, .stays rfl⟩
  | appends happend =>
      obtain ⟨hoffset, hcase⟩ := h.toAtHome.append h.inUse happend
      rcases hcase with ⟨-, hitems, hhome⟩ | ⟨-, -, hitems, hhome⟩
      · exact ⟨data, hhome, hoffset, .stays hitems⟩
      · exact ⟨_, hhome, hoffset, .puts _ hitems⟩
  | cuts hcut => exact h.toAtHome.truncate h.inUse.equipped hcut
  | closes =>
      refine ⟨data, { h.toAtHome with index := ?_, segments := ?_ }, rfl, .stays rfl⟩ <;>
        simp [Segments.get?]
  | reopens hopen =>
      obtain ⟨n, -, -, hopened⟩ := h.exists_reopens hopen
      obtain ⟨hhome, hoffset, hitems⟩ := hopened _ rfl
      exact ⟨_, hhome, hoffset, .cuts n (.inr hitems)⟩
  | unopened hopen =>
      obtain ⟨n, hkeeps, hindexed, -⟩ := h.exists_reopens hopen
      exact ⟨_, h.of_keeps hkeeps hindexed, rfl, .cuts n (.inl rfl)⟩

/-- Whatever is asked of a table, it is at work then. -/
theorem Working.serve (h : Working names place root name data table disk) (request : Request)
    {answer : Except Error Answer}
    (hrun : (serve root name request).outcome (table, disk) = (answer, (table', disk'))) :
    ∃ data', Working names place root name data' table' disk' ∧
      table'.itemOffset = table.itemOffset ∧ Moves table data table' data' := by
  obtain ⟨data', hhome, hoffset, hmoves⟩ := h.exists_moves (steps_of_serve hrun)
  obtain ⟨first, hfirst, hbegins, hdecode⟩ := h.begins
  have hwidth : position (0 + 1) = width := by simp [position]
  have hle := hmoves.width_le (hfirst ▸ hbegins.length_le)
  obtain ⟨hbegins', hcount⟩ := hmoves.keeps (n := 0) hbegins (hfirst.trans hwidth.symm)
    h.itemOffset_le (hwidth ▸ hle)
  refine ⟨data', ⟨hhome, .served h.inUse hrun, ⟨first, hfirst, hbegins', ?_⟩, ?_⟩, hoffset, hmoves⟩
  · rw [hdecode, hoffset]
  · rw [hoffset]
    exact hcount

/-! ### Any number of requests -/

/-- The index has an entry number `n`. -/
def Reaches (place : Location) (name : String) (n : Nat) (disk : Disk) : Prop :=
  ∃ data, disk.files.folder place (indexFileName name) = some data ∧
    position (n + 1) ≤ data.length

/-- Of all requests, none leaves the index without an entry number `n`. -/
def LeavesEntry (root : Path) (name : String) (place : Location) (n : Nat) :
    List Request → Table × Disk → Prop
  | [], _ => True
  | request :: requests, state =>
      Reaches place name n ((Table.serve root name request).outcome state).2.2 ∧
        LeavesEntry root name place n requests ((Table.serve root name request).outcome state).2

instance (place : Location) (name : String) (n : Nat) (disk : Disk) :
    Decidable (Reaches place name n disk) :=
  decidable_of_iff ((disk.files.folder place (indexFileName name)).any
    fun data => decide (position (n + 1) ≤ data.length)) (by simp [Reaches, Option.any_eq_true])

instance decidableLeavesEntry (root : Path) (name : String) (place : Location) (n : Nat) :
    (requests : List Request) → (state : Table × Disk) →
      Decidable (LeavesEntry root name place n requests state)
  | [], _ => .isTrue trivial
  | _ :: requests, _ =>
      have := decidableLeavesEntry root name place n requests
      inferInstanceAs (Decidable (_ ∧ _))

theorem exists_working_of_openIn (hlodges : disk.files.Lodges names (IsFileOf name) root place)
    (hopen : (openIn root name cap).outcome disk = (.ok table, disk')) :
    ∃ data, Working names place root name data table disk' := by
  have hfile := (exists_steps_of_openIn hlodges hopen rfl).1
  have hne := written_ne_nil (disk.files.folder place) name
  have hstorable : ∀ entry ∈ written (disk.files.folder place) name, entry.IsStorable :=
    fun _ hmem => isStorable_of_mem_written hmem
  obtain ⟨n, -, hreopens⟩ := exists_reopens hlodges hfile rfl hopen
  obtain ⟨hhome, hoffset, hitems⟩ := hreopens.opened table rfl
  refine ⟨_, hhome, .opened hopen, ?_, by omega⟩
  generalize written (disk.files.folder place) name = all at *
  obtain ⟨first, rest, rfl⟩ := List.exists_cons_of_ne_nil hne
  refine ⟨first.encode, length_encode first, ?_, ?_⟩
  · rw [List.take_succ_cons]
    exact List.prefix_append _ _
  · rw [decode_encode_of_isStorable (hstorable first (by simp)), hoffset, firstOf_cons]

theorem Working.exists_served (state : Table × Disk)
    (h : Working names place root name data state.1 state.2) (requests : List Request) :
    ∃ data', Working names place root name data' (served root name requests state).1
      (served root name requests state).2 := by
  induction requests generalizing state data with
  | nil => exact ⟨data, h⟩
  | cons request requests ih =>
      obtain ⟨data', h', -⟩ := h.serve request (Prod.ext rfl rfl)
      exact ih _ h'

/-- What the index starts with stays there through any number of requests that do not cut it off. -/
theorem Working.exists_keeps {state : Table × Disk}
    (h : Working names place root name data state.1 state.2) (hkept : kept <+: data)
    (hlength : kept.length = position (n + 1))
    (hcount : state.1.itemOffset + n ≤ state.1.items) {requests : List Request}
    (hleaves : LeavesEntry root name place n requests state) :
    ∃ data', Working names place root name data' (served root name requests state).1
      (served root name requests state).2 ∧ kept <+: data' := by
  induction requests generalizing state data with
  | nil => exact ⟨data, h, hkept⟩
  | cons request requests ih =>
      obtain ⟨⟨data₁, hdata₁, hreaches⟩, hleaves⟩ := hleaves
      obtain ⟨data', h', hoffset, hmoves⟩ := h.serve request (Prod.ext rfl rfl)
      obtain rfl := Option.some.inj (h'.indexed.symm.trans hdata₁)
      obtain ⟨hkept', hcount'⟩ := hmoves.keeps hkept hlength hcount hreaches
      exact ih h' hkept' (hoffset ▸ hcount') hleaves

/-! ### Entries that were appended -/

/-- Entry number `n` is in the index, in its form and in its place.  If the table is open, it is
read from there. -/
structure HoldsEntry (place : Location) (name : String) (n : Nat) (entry : IndexEntry)
    (state : Table × Disk) : Prop where
  stored : ∃ data, state.2.files.folder place (indexFileName name) = some data ∧
    data.slice? (position n) width = some entry.encode
  read : ∀ index, state.1.index = some index →
    (readEntry index n).outcome state.2 = (.ok entry, state.2)

theorem AtHome.holdsEntry (h : AtHome names place root name data table disk) {entry : IndexEntry}
    (hstorable : entry.IsStorable) {before : Bytes} (hbefore : before.length = position n)
    (hkept : before ++ entry.encode <+: data) : HoldsEntry place name n entry (table, disk) := by
  obtain ⟨rest, rfl⟩ := hkept
  have hslice := Bytes.slice?_append (Bytes.slice?_length before entry.encode) rest
  rw [hbefore, length_encode] at hslice
  refine ⟨⟨_, h.indexed, hslice⟩, fun index hindex => ?_⟩
  obtain rfl := h.index index hindex
  unfold readEntry
  rw [outcome_bind, Handle.outcome_read_of_content (content_of_folder h.indexed), hslice]
  exact congrArg (fun entry => (Except.ok entry, _)) (decode_encode_of_isStorable hstorable)

theorem Working.holdsEntry (h : Working names place root name data table disk)
    (happend : (append item blob).outcome (table, disk) = (.ok (), (table', disk')))
    {later : List Request}
    (hleaves : LeavesEntry root name place (item - table.itemOffset + 1) later (table', disk')) :
    HoldsEntry place name (item - table.itemOffset + 1) table'.headEnd
      (served root name later (table', disk')) := by
  obtain ⟨hoffset, ⟨⟨e, he⟩, -⟩ | ⟨-, rfl, hitems, hhome⟩⟩ := h.toAtHome.append h.inUse happend
  · simp at he
  have hle := h.itemOffset_le
  have hserve : (Table.serve root name (.append table.items blob)).outcome (table, disk) =
      (_, (table', disk')) := outcome_done happend
  obtain ⟨data', h', -⟩ := h.serve _ hserve
  obtain rfl := Option.some.inj (h'.indexed.symm.trans hhome.indexed)
  generalize hn : table.items - table.itemOffset + 1 = n at *
  have hbefore : (data.resize (position n)).length = position n := Bytes.length_resize _ _
  obtain ⟨data'', hworking, hkept'⟩ := h'.exists_keeps
    (Bytes.begins_overwrite data (position n) table'.headEnd.encode_ne_nil)
    (by rw [List.length_append, hbefore, length_encode, position_succ, Nat.add_comm])
    (show table'.itemOffset + n ≤ table'.items by omega) hleaves
  exact hworking.toAtHome.holdsEntry (isStorable_headEnd h'.inUse.headId_le) hbefore hkept'

/-- Every six bytes are the form of the entry read from them, and an entry comes back from its form
but for what sixteen bits cannot hold of its id.  Every entry that is ever appended, to whatever a
table was opened on and whatever happened to its files since, has an id that sixteen bits can hold,
so that it is read as it was written, and no two segments are stored with the same id.  It is so
read through any use of the table until it is cut off. -/
theorem entries_read_back :
    (∀ bytes : Bytes, bytes.length = width → (decode bytes).encode = bytes) ∧
    (∀ entry : IndexEntry,
      decode entry.encode = ⟨.ofNat (entry.segment.toNat % 65536), entry.offset⟩ ∧
      (decode entry.encode = entry ↔ entry.segment.toNat ≤ 65535)) ∧
    (∀ (root : Path) (name : String) (table table' : Table) (disk disk' : Disk) (item : Nat)
      (blob : Bytes), InUse root name table →
      (append item blob).outcome (table, disk) = (.ok (), (table', disk')) →
        StoresEntry item blob (table, disk) (table', disk')) ∧
    (∀ (root root' : Path) (name name' : String) (table table' : Table),
      InUse root name table → InUse root' name' table' →
        (table.headEnd.encode.take 2 = table'.headEnd.encode.take 2 ↔
          table.headId = table'.headId)) ∧
    ∀ (names : String → Prop) (place : Location) (root : Path) (name : String) (cap : Nat)
      (table : Table) (disk disk' : Disk),
      disk.files.Lodges names (IsFileOf name) root place →
      (openIn root name cap).outcome disk = (.ok table, disk') →
      ∀ (earlier later : List Request) (item : Nat) (blob : Bytes),
        let state := served root name earlier (table, disk')
        let state' := ((append item blob).outcome state).2
        let n := item - state.1.itemOffset + 1
        ((append item blob).outcome state).1 = .ok () →
        LeavesEntry root name place n later state' →
          HoldsEntry place name n state'.1.headEnd (served root name later state') := by
  refine ⟨fun _ => encode_decode, fun entry => ⟨decode_encode entry, decode_encode_eq_self⟩,
    fun _ _ _ _ _ _ _ _ huse => huse.storesEntry, fun _ _ _ _ _ _ => InUse.take_headEnd_eq_iff, ?_⟩
  intro names place root name cap table disk disk' hlodges hopen earlier later item blob state
    state' n happend hleaves
  obtain ⟨data, hworking⟩ := exists_working_of_openIn hlodges hopen
  obtain ⟨data', hworking'⟩ := Working.exists_served (table, disk') hworking earlier
  exact hworking'.holdsEntry (Prod.ext happend rfl) hleaves

/-- The head is the last segment that there can be. -/
def lastIds : FileSystem :=
  .ofListing
    [(indexFileName Column.hashes.name, encodeAll [⟨65534, 0⟩, ⟨65535, 2⟩]),
      (segmentFileName Column.hashes.name 65534, []),
      (segmentFileName Column.hashes.name 65535, [1, 2])]

/-- An item is appended to the last segment.  Then one is refused, as it would begin another
segment; the table is closed, one more is refused, and one is appended after opening again with a
larger cap, and cut off. -/
theorem entries_read_back_lastIds :
    (decode [0, 7, 0, 0, 0, 9]).encode = [0, 7, 0, 0, 0, 9] ∧
    decode (encode ⟨65543, 9⟩) ≠ ⟨65543, 9⟩ ∧
    ∃ table disk', (openIn ⟨["", "a"]⟩ Column.hashes.name 3).outcome (.ofFiles lastIds) =
        (.ok table, disk') ∧
      let back := ((truncate 0).outcome (table, disk')).2
      let state' := ((append 1 [3]).outcome (table, disk')).2
      back.1.headId = 65534 ∧ state'.1.headEnd = ⟨65535, 3⟩ ∧
      StoresEntry 1 [3] (table, disk') state' ∧
      back.1.headEnd.encode.take 2 ≠ state'.1.headEnd.encode.take 2 ∧
      HoldsEntry ["a"] Column.hashes.name 2 ⟨65535, 3⟩
        (served ⟨["", "a"]⟩ Column.hashes.name [.append 2 [4], .close, .append 2 [4], .reopen 9,
          .append 2 [5, 5], .truncate 2, .size] state') := by
  have hhouses : lastIds.Houses (IsFileOf Column.hashes.name) ⟨["", "a"]⟩ ["a"] :=
    (Archive.houses_ofListing _).mono fun file => Archive.isFile_of_isFileOf
  have hlodges : lastIds.Lodges (IsFileOf Column.hashes.name) (IsFileOf Column.hashes.name)
      ⟨["", "a"]⟩ ["a"] := ⟨hhouses, fun file => .inl⟩
  have hfacts : let opened :=
        (openIn ⟨["", "a"]⟩ Column.hashes.name 3).outcome (.ofFiles lastIds)
      opened.1.toOption.any (fun table =>
        let back := ((truncate 0).outcome (table, opened.2)).2
        let appended := (append 1 [3]).outcome (table, opened.2)
        decide (table.itemOffset = 0 ∧ back.1.headId = 65534 ∧ appended.1 = .ok () ∧
          appended.2.1.headId = 65535 ∧ appended.2.1.headEnd = ⟨65535, 3⟩ ∧
          LeavesEntry ⟨["", "a"]⟩ Column.hashes.name ["a"] 2
            [.append 2 [4], .close, .append 2 [4], .reopen 9, .append 2 [5, 5], .truncate 2, .size]
            appended.2)) = true := by
    decide +kernel
  obtain ⟨hencode, hdecode, hstores, hids, hholds⟩ := entries_read_back
  rcases hopen : (openIn ⟨["", "a"]⟩ Column.hashes.name 3).outcome (.ofFiles lastIds) with
    ⟨answer, disk'⟩
  rw [hopen] at hfacts
  cases answer with
  | error e => cases hfacts
  | ok table =>
      obtain ⟨hoffset, hback, happend, hheadId, hentry, hleaves⟩ := of_decide_eq_true hfacts
      have huse : InUse ⟨["", "a"]⟩ Column.hashes.name table := .opened hopen
      have happend' : (Table.serve ⟨["", "a"]⟩ Column.hashes.name (.append 1 [3])).outcome
          (table, disk') = (_, ((append 1 [3]).outcome (table, disk')).2) :=
        outcome_done (Prod.ext happend rfl)
      have hcut : (Table.serve ⟨["", "a"]⟩ Column.hashes.name (.truncate 0)).outcome
          (table, disk') = (_, ((truncate 0).outcome (table, disk')).2) :=
        outcome_done (Prod.ext rfl rfl)
      have hheld := hholds _ _ _ _ _ _ _ _ hlodges hopen [] [.append 2 [4], .close, .append 2 [4],
        .reopen 9, .append 2 [5, 5], .truncate 2, .size] 1 [3] happend
      simp only [served, hoffset] at hheld
      refine ⟨hencode _ rfl, fun h => absurd ((hdecode _).2.1 h) (by decide), table, disk', rfl,
        hback, hentry, hstores _ _ _ _ _ _ _ _ huse (Prod.ext happend rfl), fun h => ?_,
        hentry ▸ hheld hleaves⟩
      have hsame := (hids _ _ _ _ _ _ (.served huse hcut) (.served huse happend')).1 h
      rw [hback, hheadId] at hsame
      simp at hsame

end BlockArchive.Table
