import BlockArchive.Proofs.Archive.Ledger
import BlockArchive.Proofs.Table.Serving

/-! # Opening an archive on uneven tables

The five tables of a directory may each have been worked on by itself, so that they hold different
numbers of items.  Opening an archive on them cuts all to the shortest.

* **`Works`**: requests to the tables of the columns, in any order, and what each table stands for
  when they are done.  None touches the files of the other columns (`Kept.untouched`).
* **`LeavesOver`**: besides, there may be segments above all that an index names.
* **`EvenedOut`** is what an archive shows that was opened on the tables then: the items of each up
  to the length of the shortest, and no trace of the others (`openAt_evens_out`). -/

namespace BlockArchive.Archive

open IndexEntry Table

variable {root : Path} {place : Location} {c : Column} {holding : Holding} {table : Table}
  {tables : ByColumn Table} {disk disk' : Disk} {holdings : ByColumn Holding}

/-! ### Requests to the tables -/

/-- Carries out a request on the table of one column. -/
def serveColumn (root : Path) (c : Column) (request : Table.Request) :
    Action (ByColumn Table × Disk) Table.Answer :=
  Attempt.onFirst (fun tables => tables.get c) (fun table tables => tables.set c table)
    (Table.serve root c.name request)

/-- Requests are answered by the tables of the columns one after the other, from the tables and the
disk that stand for the first holdings to those that stand for the last. -/
inductive Works (root : Path) : ByColumn Holding → ByColumn Table × Disk →
    List (Column × Table.Request) → ByColumn Holding → ByColumn Table × Disk → Prop where
  | nil (holdings : ByColumn Holding) (state : ByColumn Table × Disk) :
      Works root holdings state [] holdings state
  | cons {holdings last : ByColumn Holding} {state state' final : ByColumn Table × Disk}
      {c : Column} {request : Table.Request} {requests : List (Column × Table.Request)}
      {answer : Except Error Table.Answer} {holding' : Holding}
      (hrun : (serveColumn root c request).outcome state = (answer, state'))
      (hserves : Table.Serves 0 (state.1.get c) (holdings.get c) request answer holding')
      (hrest : Works root (holdings.set c holding') state' requests last final) :
      Works root holdings state ((c, request) :: requests) last final

/-- A table that holds nothing and is not open. -/
def nothingHeld : Holding := ⟨[], [], false⟩

/-- The table of a column stands for this holding; before it is first opened, it has no index. -/
inductive Kept (root : Path) (place : Location) (c : Column) : Holding → Table × Disk → Prop where
  | missing {table : Table} {disk : Disk}
      (hindex : disk.files.folder place (indexFileName c.name) = none)
      (hclosed : table.index = none) : Kept root place c nothingHeld (table, disk)
  | there {entries : List IndexEntry} {holding : Holding} {state : Table × Disk}
      (h : Table.Represents IsFile place root c.name 0 entries holding state)
      (hclimbs : Climbs entries) : Kept root place c holding state

theorem Kept.exists_serve {state : Table × Disk} (h : Kept root place c holding state)
    (hhouses : state.2.files.Houses IsFile root place) (request : Table.Request) :
    ∃ answer holding' state',
      (Table.serve root c.name request).outcome state = (answer, state') ∧
      Table.Serves 0 state.1 holding request answer holding' ∧
      Kept root place c holding' state' ∧ Confined c.name place state.2 state'.2 := by
  cases h with
  | missing hindex hclosed =>
      by_cases hreopen : ∃ cap, request = .reopen cap
      · obtain ⟨cap, rfl⟩ := hreopen
        obtain ⟨state', hrun, hrepresents, hconfined⟩ :=
          exists_reopen_of_missing (hnames_column c) hhouses hindex cap _
        exact ⟨_, _, _, hrun, .reopen nothingHeld cap, .there hrepresents climbs_sentinel,
          hconfined⟩
      · obtain ⟨answer, hrun, hserves⟩ := exists_serve_of_closed hclosed
          (fun cap heq => hreopen ⟨cap, heq⟩) 0 [] [] root c.name _
        exact ⟨_, _, _, hrun, hserves, .missing hindex hclosed, .refl _ _ _⟩
  | there h hclimbs =>
      obtain ⟨answer, holding', entries', state', hrun, hserves, hreached⟩ :=
        h.exists_serve (hnames_column c) request
      exact ⟨_, _, _, hrun, hserves, .there hreached.represents (hreached.climbs hclimbs),
        hreached.confined⟩

/-- What is done to the files of other columns leaves a table as it is. -/
theorem Kept.untouched (h : Kept root place c holding (table, disk))
    (huntouched : Untouched place c.name disk disk')
    (hhouses' : disk'.files.Houses IsFile root place) :
    Kept root place c holding (table, disk') := by
  have hsame := huntouched.files
  generalize hstate : (table, disk) = state at h
  cases h with
  | missing hindex hclosed =>
      cases hstate
      exact .missing (hsame.index.trans hindex) hclosed
  | there h hclimbs =>
      cases hstate
      refine .there ⟨hhouses', h.steady.congr hsame, h.pruned, ?_, ?_, fun hopen => ?_,
        h.whenClosed⟩ hclimbs
      · rw [h.items]
        exact (storedItems_congr fun entry _ => by rw [hsame.segmentBytes]).symm
      · rw [h.left, leftIn, leftIn, hsame.segmentBytes]
      · obtain ⟨cap, htable⟩ := h.whenOpen hopen
        exact ⟨cap, htable.trans (huntouched.opened_eq root cap _).symm⟩

/-- The tables of all columns stand for these holdings. -/
structure AllKept (root : Path) (place : Location) (holdings : ByColumn Holding)
    (state : ByColumn Table × Disk) : Prop where
  houses : state.2.files.Houses IsFile root place
  locked : state.2.locked = []
  kept : ∀ c : Column, Kept root place c (holdings.get c) (state.1.get c, state.2)

theorem AllKept.exists_serveColumn {state : ByColumn Table × Disk}
    (h : AllKept root place holdings state) (c : Column) (request : Table.Request) :
    ∃ answer holding' state', (serveColumn root c request).outcome state = (answer, state') ∧
      Table.Serves 0 (state.1.get c) (holdings.get c) request answer holding' ∧
      AllKept root place (holdings.set c holding') state' := by
  obtain ⟨answer, holding', ⟨table', disk'⟩, hrun, hserves, hkept, changes, hchanges, hfits,
    (hdisk' : disk' = state.2.after place changes)⟩ := (h.kept c).exists_serve h.houses request
  have hnamed : ∀ change ∈ changes, IsFile change.name := fun change hmem =>
    isFile_of_isFileOf (hchanges change hmem)
  have hhouses' : disk'.files.Houses IsFile root place := by
    rw [hdisk']
    exact Disk.houses_after h.houses hnamed hfits
  refine ⟨answer, holding', (state.1.set c table', disk'), ?_, hserves, hhouses', ?_,
    fun d => ?_⟩
  · rw [serveColumn, Attempt.outcome_onFirst, hrun]
  · rw [hdisk', Disk.locked_after, h.locked]
  · by_cases hdc : d = c
    · rw [hdc, ByColumn.get_set_same, ByColumn.get_set_same]
      exact hkept
    · rw [ByColumn.get_set_ne _ _ hdc, ByColumn.get_set_ne _ _ hdc]
      exact (h.kept d).untouched
        (untouched_after (Ne.symm hdc) h.houses hnamed hchanges hfits hdisk') hhouses'

theorem AllKept.exists_works {state : ByColumn Table × Disk}
    (h : AllKept root place holdings state) (requests : List (Column × Table.Request)) :
    ∃ last final, Works root holdings state requests last final ∧
      AllKept root place last final := by
  induction requests generalizing holdings state with
  | nil => exact ⟨_, _, .nil _ _, h⟩
  | cons first requests ih =>
      obtain ⟨c, request⟩ := first
      obtain ⟨answer, holding', state', hrun, hserves, h'⟩ := h.exists_serveColumn c request
      obtain ⟨last, final, hworks, hlast⟩ := ih h'
      exact ⟨last, final, .cons hrun hserves hworks, hlast⟩

/-! ### What is left over -/

/-- From the one disk to the other nothing changed of the tables but segments above all that an
index names. -/
structure LeavesOver (place : Location) (disk disk' : Disk) : Prop where
  locked : disk'.locked = disk.locked
  index : ∀ c : Column, disk'.files.folder place (indexFileName c.name) =
    disk.files.folder place (indexFileName c.name)
  segment : ∀ (c : Column) (id : Nat),
    id ≤ (lastOf (written (disk.files.folder place) c.name)).segment.toNat →
      disk'.files.folder place (segmentFileName c.name id) =
        disk.files.folder place (segmentFileName c.name id)

theorem LeavesOver.refl (place : Location) (disk : Disk) : LeavesOver place disk disk :=
  ⟨rfl, fun _ => rfl, fun _ _ _ => rfl⟩

theorem Kept.recovers {state : Table × Disk} (h : Kept root place c holding state)
    (hover : LeavesOver place state.2 disk') :
    ∃ all, Recovers (disk'.files.folder place) c.name all ∧
      storedItems (disk'.files.folder place) c.name all = holding.items ∧ Climbs all := by
  cases h with
  | missing hindex hclosed =>
      exact ⟨_, recovers_of_index_missing ((hover.index c).trans hindex), rfl, climbs_sentinel⟩
  | @there entries _ _ h hclimbs =>
      have hfirst : (firstOf entries).offset = 0 := UInt32.toNat_inj.1 h.pruned
      have hwhole : Whole (state.2.files.folder place) c.name entries :=
        h.steady.whole hfirst
      have hwritten := written_of_index hwhole.ne_nil hwhole.storable hwhole.index
      have hsegment : ∀ id ≤ (lastOf entries).segment.toNat,
          disk'.files.folder place (segmentFileName c.name id) =
            state.2.files.folder place (segmentFileName c.name id) := fun id hid =>
        hover.segment c id (hwritten ▸ hid)
      have hagree : Agrees (state.2.files.folder place) (disk'.files.folder place) c.name
          entries := by
        refine ⟨fun id _ hlt => hsegment id (Nat.le_of_lt hlt), ?_⟩
        unfold segmentBytes
        rw [hsegment _ (Nat.le_refl _)]
      have hbacked := hwhole.toBacked.of_agrees hagree
      refine ⟨entries, ⟨hbacked, kept_eq_of_index hwhole.ne_nil hwhole.storable
        ((hover.index c).trans hwhole.index) ?_⟩, ?_, hclimbs⟩
      · have := hbacked.reaches _ (lastOf_mem hwhole.ne_nil)
        simp [dangles, this]
      · rw [hwhole.toBacked.storedItems_eq hagree, h.items]

/-! ### Opening -/

/-- What an archive shows that was opened on tables with these items: of each the items up to the
length of the shortest, in rows. -/
structure EvenedOut (root : Path) (items : ByColumn (List Bytes)) (rows : List Row)
    (archive : Archive) (disk : Disk) : Prop where
  least : ∀ c : Column, rows.length ≤ (items.get c).length
  shortest : ∃ c : Column, (items.get c).length = rows.length
  columns : ∀ c : Column, (rows.map fun row => row.get c) = (items.get c).take rows.length
  blocks : count.outcome (archive, disk) = (.ok rows.length, (archive, disk))
  tables : ∀ c : Column, (archive.tables.get c).items = rows.length
  /-- Each table answers with the items that it held before. -/
  inside : ∀ (c : Column) (n : Nat) (data : Bytes), n < rows.length →
    (items.get c)[n]? = some data →
    (get c (n + 1)).outcome (archive, disk) = (.ok data, (archive, disk))
  outside : ∀ (c : Column) (number : Nat), rows.length < number →
    (get c number).outcome (archive, disk) =
      (.error (.outOfBounds (number - 1) 0 rows.length), (archive, disk))
  audit : ∃ report, Audit.archive disk.files root = .ok report ∧ report.findingCount = 0
  /-- From then on the archive is just these rows and those that are appended to them. -/
  follows : ∀ requests : List Request,
    Ledger.Follows root ⟨rows, true⟩ requests (answers root requests (archive, disk))

theorem Stores.evenedOut {archive : Archive} {rows : List Row} {items : ByColumn (List Bytes)}
    (h : archive.Stores disk root place rows) (hleast : ∀ c, rows.length ≤ (items.get c).length)
    (hshortest : ∃ c : Column, (items.get c).length = rows.length)
    (hcolumns : ∀ c : Column, (rows.map fun row => row.get c) = (items.get c).take rows.length) :
    EvenedOut root items rows archive disk := by
  have hanswer : ∀ (c : Column) (number : Nat), (get c number).outcome (archive, disk) =
      (itemAnswer ((items.get c).take rows.length) (itemOf number), (archive, disk)) := by
    obtain ⟨cap, entries, hopen, -⟩ := h
    intro c number
    rw [hopen.outcome_get, get_columnsOf, hcolumns]
  refine ⟨hleast, hshortest, hcolumns, h.outcome_count, h.reads.items, fun c n data hn hdata => ?_,
    fun c number hnumber => ?_, h.isSound.audit, h.isSound.follows⟩
  · rw [hanswer, itemOf, if_neg (Nat.succ_ne_zero n), Nat.add_sub_cancel, itemAnswer,
      List.getElem?_take_of_lt hn, hdata]
  · have hlength : ((items.get c).take rows.length).length = rows.length := by
      rw [List.length_take, Nat.min_eq_left (hleast c)]
    rw [hanswer, itemOf, if_neg (by omega), itemAnswer, List.getElem?_eq_none (by omega), hlength]

/-- The items that the tables hold. -/
def heldItems (holdings : ByColumn Holding) : ByColumn (List Bytes) :=
  .ofFn fun c => (holdings.get c).items

theorem AllKept.exists_evenedOut {state : ByColumn Table × Disk}
    (h : AllKept root place holdings state) (hhouses : disk'.files.Houses IsFile root place)
    (hover : LeavesOver place state.2 disk') (settings : Settings) :
    ∃ rows archive disk'', (openAt root settings).outcome disk' = (.ok archive, disk'') ∧
      EvenedOut root (heldItems holdings) rows archive disk'' := by
  obtain ⟨_, ⟨c₀, rfl⟩, hmin⟩ := Nat.lt_wfRel.wf.has_min
    (Set.range fun c : Column => (holdings.get c).items.length) ⟨_, .hashes, rfl⟩
  have hleast : ∀ c : Column, (holdings.get c₀).items.length ≤ (holdings.get c).items.length :=
    fun c => Nat.not_lt.1 (hmin _ ⟨c, rfl⟩)
  generalize hrows : rowsOf (fun c => (holdings.get c).items) (holdings.get c₀).items.length = rows
  have hlength : rows.length = (holdings.get c₀).items.length := by
    rw [← hrows, rowsOf, List.length_map, List.length_range]
  have hcolumns : ∀ c : Column, (rows.map fun row => row.get c) =
      (holdings.get c).items.take rows.length := fun c => by
    rw [hlength, ← hrows, map_get_rowsOf (hleast c)]
  obtain ⟨entries, hrestores, hclimbs⟩ := exists_restores_of_climbs
    (fun c => (h.kept c).recovers hover) (fun c => (hcolumns c).symm) ⟨c₀, hlength.symm⟩
  have hkeeps : Keeps disk' root place rows :=
    ⟨hhouses, hover.locked.trans h.locked, entries, hrestores, hclimbs⟩
  obtain ⟨archive, disk'', hrun, hstores⟩ := hkeeps.exists_openAt settings
  refine ⟨rows, archive, disk'', hrun, hstores.evenedOut (fun c => ?_) ⟨c₀, ?_⟩ fun c => ?_⟩
  · rw [heldItems, ByColumn.get_ofFn, hlength]
    exact hleast c
  · rw [heldItems, ByColumn.get_ofFn, hlength]
  · rw [heldItems, ByColumn.get_ofFn, hcolumns]

/-- Five tables that are made and worked on each by itself, in a directory without an index, can be
opened as an archive, also when segments are left over behind their items.  It shows the items of
each up to the length of the shortest, and goes on from there. -/
theorem openAt_evens_out (hhouses : disk.files.Houses IsFile root place)
    (hlocked : disk.locked = [])
    (hmissing : ∀ c : Column, disk.files.folder place (indexFileName c.name) = none)
    (hclosed : ∀ c : Column, (tables.get c).index = none)
    (requests : List (Column × Table.Request)) :
    ∃ holdings tables' disk',
      Works root (.ofFn fun _ => nothingHeld) (tables, disk) requests holdings (tables', disk') ∧
      disk'.files.Houses IsFile root place ∧
      ∀ (left : Disk) (settings : Settings), left.files.Houses IsFile root place →
        LeavesOver place disk' left →
          ∃ rows archive disk'', (openAt root settings).outcome left = (.ok archive, disk'') ∧
            EvenedOut root (heldItems holdings) rows archive disk'' := by
  have hkept : AllKept root place (.ofFn fun _ => nothingHeld) (tables, disk) := by
    refine ⟨hhouses, hlocked, fun c => ?_⟩
    rw [ByColumn.get_ofFn]
    exact .missing (hmissing c) (hclosed c)
  obtain ⟨holdings, ⟨tables', disk'⟩, hworks, hkept'⟩ := hkept.exists_works requests
  exact ⟨holdings, tables', disk', hworks, hkept'.houses, fun left settings hhouses' hover =>
    hkept'.exists_evenedOut hhouses' hover settings⟩

/-- A directory with nothing but a segment that is left over of some hashes. -/
def oneLeftOver : FileSystem :=
  .ofListing [(segmentFileName Column.hashes.name 1, [9, 9])]

/-- There are two hashes, in two segments, and one item in each other table. -/
theorem openAt_evens_out_oneLeftOver :
    ∃ holdings tables' disk',
      Works ⟨["", "a"]⟩ (.ofFn fun _ => nothingHeld)
        (.ofFn fun c => unopened ⟨["", "a"]⟩ c.name, Disk.ofFiles oneLeftOver)
        ((Column.all.map fun c => (c, .reopen 2)) ++
          (Column.all.map fun c => (c, .append 0 [1, 2])) ++ [(.hashes, .append 1 [3])])
        holdings (tables', disk') ∧
      ∃ rows archive disk'', (openAt ⟨["", "a"]⟩ {}).outcome disk' = (.ok archive, disk'') ∧
        EvenedOut ⟨["", "a"]⟩ (heldItems holdings) rows archive disk'' := by
  have hhouses : (Disk.ofFiles oneLeftOver).files.Houses IsFile ⟨["", "a"]⟩ ["a"] :=
    houses_ofListing _
  have hmissing : ∀ c : Column,
      (Disk.ofFiles oneLeftOver).files.folder ["a"] (indexFileName c.name) = none := by
    intro c
    rw [Disk.ofFiles, oneLeftOver, FileSystem.folder_ofListing]
    cases c <;> decide +kernel
  have hclosed : ∀ c : Column,
      ((ByColumn.ofFn fun c => unopened ⟨["", "a"]⟩ c.name).get c).index = none := by
    intro c
    rw [ByColumn.get_ofFn, unopened]
  obtain ⟨holdings, tables', disk', hworks, hhouses', hopens⟩ := openAt_evens_out hhouses rfl
    hmissing hclosed
    ((Column.all.map fun c => (c, .reopen 2)) ++
      (Column.all.map fun c => (c, .append 0 [1, 2])) ++ [(.hashes, .append 1 [3])])
  exact ⟨holdings, tables', disk', hworks, hopens disk' {} hhouses' (.refl _ _)⟩

end BlockArchive.Archive
