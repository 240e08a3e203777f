import Mathlib.Logic.Relation
import BlockArchive.Proofs.Archive.Interrupted
import BlockArchive.Proofs.Archive.Ledger

/-! # Recovery

An archive can crash at any time, and opening it again repairs its files.

* **`Step`** says what can happen to an archive: it is opened, serves a request, or crashes.
  Whatever happens, it stays `IsConsistent`, so its files can always be opened.
* **Appending and cutting are atomic.** After a crash in the middle, opening shows the rows of
  before or those that there were to be (`exists_isSound_of_appendCrash`,
  `exists_isSound_of_truncate_cutShort`).
* **Recovery can be interrupted itself.** Opening once more leads to the same archive
  (`exists_showsSame_of_openAt_cutShort`). -/

namespace BlockArchive.Archive

open IndexEntry Table

/-- Files that nobody works on, or an archive at work on a disk. -/
inductive Situation where
  | idle (files : FileSystem)
  | working (archive : Archive) (disk : Disk)

/-- What can happen to an archive. -/
inductive Step (root : Path) (place : Location) : Situation → Situation → Prop where
  | opens {files : FileSystem} {archive : Archive} {disk : Disk} (settings : Settings)
      (h : (openAt root settings).outcome (Disk.ofFiles files) = (.ok archive, disk)) :
      Step root place (.idle files) (.working archive disk)
  | serves {archive archive' : Archive} {disk disk' : Disk} {answer : Except Error Answer}
      (request : Request)
      (h : (serve root request).outcome (archive, disk) = (answer, (archive', disk'))) :
      Step root place (.working archive disk) (.working archive' disk')
  /-- Between two requests. -/
  | stops (archive : Archive) (disk : Disk) :
      Step root place (.working archive disk) (.idle disk.files)
  /-- In the middle of an append, of which each table got a part of its own, in whatever order. -/
  | tears {archive : Archive} {disk : Disk} {row : Row} {progress : Column → Option (Nat × Nat)}
      {files : FileSystem} (hopen : archive.closed = false)
      (h : archive.AppendCrash disk root place row progress files) :
      Step root place (.working archive disk) (.idle files)
  | crashesAppending {archive : Archive} {disk : Disk} {number : Nat} {row : Row}
      {cut : List Effect} (h : Effect.CutShort (performs (append number row) archive disk) cut) :
      Step root place (.working archive disk) (.idle (Effect.applyAll disk.files cut))
  | crashesCutting {archive : Archive} {disk : Disk} {blocks : Nat} {cut : List Effect}
      (h : Effect.CutShort (performs (truncate blocks) archive disk) cut) :
      Step root place (.working archive disk) (.idle (Effect.applyAll disk.files cut))
  | crashesOpening {files : FileSystem} {archive : Archive} {disk : Disk} {cut : List Effect}
      (settings : Settings)
      (h : (openAt root settings).outcome (Disk.ofFiles files) = (.ok archive, disk))
      (hcut : Effect.CutShort disk.effects cut) :
      Step root place (.idle files) (.idle (Effect.applyAll files cut))

/-- The files hold rows, and an archive at work stands for them. -/
def IsConsistent (root : Path) (place : Location) : Situation → Prop
  | .idle files => ∃ rows, Keeps (Disk.ofFiles files) root place rows
  | .working archive disk => ∃ ledger, Represents root place ledger (archive, disk)

variable {archive : Archive} {disk : Disk} {root : Path} {place : Location} {rows : List Row}
  {files : FileSystem} {situation situation' : Situation} {settings : Settings}

/-! ### Whatever happens -/

theorem Keeps.ofFiles (h : Keeps disk root place rows) :
    Keeps (Disk.ofFiles disk.files) root place rows :=
  ⟨h.1, rfl, h.2.2⟩

theorem Stores.closed_eq_false (h : archive.Stores disk root place rows) :
    archive.closed = false := by
  obtain ⟨cap, entries, hopen, -⟩ := h
  exact hopen.closed

theorem Stores.keeps (h : archive.Stores disk root place rows) :
    Keeps (Disk.ofFiles disk.files) root place rows := by
  obtain ⟨cap, entries, hopen, -, hclimbs⟩ := h
  exact ⟨hopen.houses, rfl, entries, hopen.rests.restores, hclimbs⟩

theorem Represents.keeps {ledger : Ledger} (h : Represents root place ledger (archive, disk)) :
    Keeps (Disk.ofFiles disk.files) root place ledger.rows := by
  cases h with
  | opened hstores => exact hstores.keeps
  | closed hclosed hkeeps => exact hkeeps.ofFiles

theorem Represents.stores {ledger : Ledger} (h : Represents root place ledger (archive, disk))
    (hopen : archive.closed = false) : archive.Stores disk root place ledger.rows := by
  cases h with
  | opened hstores => exact hstores
  | closed hclosed hkeeps => simp [hclosed] at hopen

theorem Represents.performs_truncate {ledger : Ledger} {blocks : Nat}
    (h : Represents root place ledger (archive, disk))
    (hnone : archive.closed = false → ledger.rows.length ≤ blocks) :
    performs (truncate blocks) archive disk = [] := by
  refine performs_of_unchanged ?_
  cases h with
  | opened hstores => rw [hstores.outcome_truncate_of_le (hnone hstores.closed_eq_false)]
  | closed hclosed hkeeps =>
      unfold truncate
      rw [Attempt.outcome_bind_error (outcome_ensureOpen_of_closed hclosed disk)]

theorem Represents.performs_append {ledger : Ledger} {number : Nat} {row : Row}
    (h : Represents root place ledger (archive, disk))
    (hother : archive.closed = false → number ≠ ledger.rows.length) :
    performs (append number row) archive disk = [] := by
  refine performs_of_unchanged ?_
  cases h with
  | opened hstores => rw [hstores.outcome_append_of_ne (hother hstores.closed_eq_false)]
  | closed hclosed hkeeps =>
      unfold append appendBlock
      rw [Attempt.outcome_bind_error (outcome_ensureOpen_of_closed hclosed disk)]

/-- Whatever happens to an archive, it stays consistent. -/
theorem IsConsistent.step (h : IsConsistent root place situation)
    (hstep : Step root place situation situation') : IsConsistent root place situation' := by
  cases hstep with
  | opens settings hrun =>
      obtain ⟨rows, hkeeps⟩ := h
      obtain ⟨archive', disk', hrun', hstores⟩ := hkeeps.exists_openAt settings
      rw [hrun] at hrun'
      obtain ⟨hok, rfl⟩ := Prod.mk.inj hrun'
      obtain rfl := Except.ok.inj hok
      exact ⟨_, .opened hstores⟩
  | serves request hrun =>
      obtain ⟨ledger, hrepresents⟩ := h
      obtain ⟨answer', ledger', state', hrun', -, hrepresents'⟩ := hrepresents.exists_serve request
      rw [hrun] at hrun'
      obtain ⟨-, rfl⟩ := Prod.mk.inj hrun'
      exact ⟨ledger', hrepresents'⟩
  | stops archive disk =>
      obtain ⟨ledger, hrepresents⟩ := h
      exact ⟨_, hrepresents.keeps⟩
  | tears hopen hcrash =>
      obtain ⟨ledger, hrepresents⟩ := h
      exact ⟨_, (hrepresents.stores hopen).keeps_of_appendCrash hcrash⟩
  | @crashesAppending archive disk number row cut hcut =>
      obtain ⟨ledger, hrepresents⟩ := h
      by_cases hnext : archive.closed = false ∧ number = ledger.rows.length
      · obtain ⟨hopen, rfl⟩ := hnext
        rcases (hrepresents.stores hopen).keeps_of_append_cutShort hcut with hkeeps | hkeeps
        · exact ⟨_, hkeeps⟩
        · exact ⟨_, hkeeps⟩
      · rw [hrepresents.performs_append fun hopen hnumber => hnext ⟨hopen, hnumber⟩] at hcut
        cases hcut
        exact ⟨_, hrepresents.keeps⟩
  | @crashesCutting archive disk blocks cut hcut =>
      obtain ⟨ledger, hrepresents⟩ := h
      by_cases hsome : archive.closed = false ∧ blocks < ledger.rows.length
      · obtain ⟨hopen, hlt⟩ := hsome
        exact ⟨_, (hrepresents.stores hopen).keeps_of_truncate_cutShort hlt hcut⟩
      · rw [hrepresents.performs_truncate fun hopen => Nat.le_of_not_lt fun hlt =>
          hsome ⟨hopen, hlt⟩] at hcut
        cases hcut
        exact ⟨_, hrepresents.keeps⟩
  | crashesOpening settings hrun hcut =>
      obtain ⟨rows, hhouses, -, entries, hrestores, hclimbs⟩ := h
      obtain ⟨hhouses', hrestores'⟩ := hrestores.of_openAt_cutShort hhouses hrun hcut
      exact ⟨rows, hhouses', rfl, entries, hrestores', hclimbs⟩

theorem EmptyRoot.isConsistent (h : EmptyRoot files root place)
    (hsteps : Relation.ReflTransGen (Step root place) (.idle files) situation) :
    IsConsistent root place situation := by
  induction hsteps with
  | refl => exact ⟨[], h.keeps⟩
  | tail _ hstep ih => exact ih.step hstep

theorem EmptyRoot.exists_stores (h : EmptyRoot files root place)
    (hsteps : Relation.ReflTransGen (Step root place) (.idle files) (.working archive disk))
    (hopen : archive.closed = false) : ∃ rows, archive.Stores disk root place rows := by
  obtain ⟨ledger, hrepresents⟩ := h.isConsistent hsteps
  exact ⟨ledger.rows, hrepresents.stores hopen⟩

theorem steps_left (requests : List Request) (state : Archive × Disk) :
    Relation.ReflTransGen (Step root place) (.working state.1 state.2)
      (.working (left root requests state).1 (left root requests state).2) := by
  induction requests generalizing state with
  | nil => exact .refl
  | cons request requests ih => exact .head (.serves request rfl) (ih _)

theorem EmptyRoot.exists_steps_appends (h : EmptyRoot files root place) (settings : Settings)
    (rows : List Row) (hrows : rows.length ≤ lastSegmentId)
    (hshort : ∀ row ∈ rows, ∀ c : Column, (row.get c).length < offsetLimit) :
    ∃ (archive : Archive) (disk : Disk) (state : Archive × Disk),
      (openAt root settings).outcome (Disk.ofFiles files) = (.ok archive, disk) ∧
      state = left root (appends 0 rows) (archive, disk) ∧
      Relation.ReflTransGen (Step root place) (.idle files) (.working state.1 state.2) ∧
      state.1.Stores state.2 root place rows := by
  obtain ⟨archive, disk, hrun, hstores⟩ := h.keeps.exists_openAt settings
  exact ⟨archive, disk, _, hrun, rfl, .head (.opens settings hrun) (steps_left _ (archive, disk)),
    hstores.stores_left_appends (by rwa [List.length_nil, Nat.zero_add]) hshort⟩

theorem exists_steps_oneDirectory :
    ∃ archive disk row, Relation.ReflTransGen (Step ⟨["", "a"]⟩ ["a"]) (.idle oneDirectory)
        (.working archive disk) ∧ archive.Stores disk ⟨["", "a"]⟩ ["a"] [row] ∧
      ∀ c : Column, (row.get c).length < offsetLimit := by
  have hshort : ∀ row ∈ [(⟨[1], [2, 3], [4], [], []⟩ : Row)], ∀ c : Column,
      (row.get c).length < offsetLimit := by
    intro row hrow c
    rw [List.mem_singleton.1 hrow]
    cases c <;> decide
  obtain ⟨_, _, state, -, -, hsteps, hstores⟩ :=
    emptyRoot_oneDirectory.exists_steps_appends {} _ (by decide) hshort
  exact ⟨state.1, state.2, _, hsteps, hstores, hshort _ List.mem_cons_self⟩

/-! ### Crashes in the middle of a request -/

/-- When a crash in the middle of an append is followed by opening, the new row is there if it was
written as a whole, in all columns, and else just the rows before. -/
theorem exists_isSound_of_appendCrash (h : EmptyRoot files root place)
    (hsteps : Relation.ReflTransGen (Step root place) (.idle files) (.working archive disk))
    (hopen : archive.closed = false) :
    ∃ rows, archive.Reads disk rows ∧
      ∀ row progress files', archive.AppendCrash disk root place row progress files' →
        ∀ settings, ∃ archive' disk',
          (openAt root settings).outcome (Disk.ofFiles files') = (.ok archive', disk') ∧
            archive'.IsSound disk' root (rowsLeft rows row progress) := by
  obtain ⟨rows, hstores⟩ := h.exists_stores hsteps hopen
  refine ⟨rows, hstores.reads, fun row progress files' hcrash settings => ?_⟩
  obtain ⟨archive', disk', hrun, hstores'⟩ :=
    (hstores.keeps_of_appendCrash hcrash).exists_openAt settings
  exact ⟨archive', disk', hrun, hstores'.isSound⟩

/-- A crash right after the first effect of appending a second row. -/
theorem exists_isSound_oneDirectory :
    ∃ (archive archive' : Archive) (disk disk' : Disk) (row : Row) (first : Effect)
        (others : List Effect) (progress : Column → Option (Nat × Nat)), archive.Reads disk [row] ∧
      performs (append 1 row) archive disk = first :: others ∧
      archive.AppendCrash disk ⟨["", "a"]⟩ ["a"] row progress
        (Effect.applyAll disk.files [first]) ∧
      (openAt ⟨["", "a"]⟩ {}).outcome (Disk.ofFiles (Effect.applyAll disk.files [first])) =
        (.ok archive', disk') ∧
      archive'.IsSound disk' ⟨["", "a"]⟩ (rowsLeft [row] row progress) := by
  obtain ⟨archive, disk, row, hsteps, hstores, hshort⟩ := exists_steps_oneDirectory
  obtain ⟨rows, hreads, hcrash⟩ :=
    exists_isSound_of_appendCrash emptyRoot_oneDirectory hsteps hstores.closed_eq_false
  obtain rfl := hreads.eq hstores.reads
  obtain ⟨_, _, happend, -⟩ := hstores.exists_append_of_short (by simp [lastSegmentId]) hshort
  have hok : ((append [row].length row).outcome (archive, disk)).1 = .ok () := by rw [happend]
  have hperforms := (hstores.performs_append hok).2
  obtain ⟨change, changes, hchanges⟩ := List.exists_cons_of_ne_nil
    (appending_ne_nil (disk.files.folder ["a"]) (archive.tables.get .hashes) (row.get .hashes))
  rw [appendingIn, Column.all, List.flatMap_cons, hchanges, List.cons_append, Disk.effectsOf]
    at hperforms
  have hcut : Effect.CutShort (performs (append [row].length row) archive disk)
      [change.effect disk.files ["a"]] := by
    rw [hperforms]
    exact .step _ (.stop _)
  obtain ⟨progress, hleft⟩ := hstores.exists_appendCrash hok hcut
  obtain ⟨archive', disk', hrun, hsound⟩ := hcrash _ _ _ hleft {}
  exact ⟨archive, archive', disk, disk', row, _, _, progress, hreads, hperforms, hleft, hrun,
    hsound⟩

/-- When a crash in the middle of a cut is followed by opening, the first rows are there, and all
rows only if not even the index of the first table was cut. -/
theorem exists_isSound_of_truncate_cutShort (h : EmptyRoot files root place)
    (hsteps : Relation.ReflTransGen (Step root place) (.idle files) (.working archive disk))
    (hopen : archive.closed = false) :
    ∃ rows, archive.Reads disk rows ∧ ∀ blocks < rows.length,
      (∃ others, performs (truncate blocks) archive disk =
        .setLength (disk.files.number place (indexFileName Column.hashes.name))
          (position (blocks + 1)) :: others) ∧
      ∀ cut, Effect.CutShort (performs (truncate blocks) archive disk) cut →
        ∀ settings, ∃ archive' disk',
          (openAt root settings).outcome (Disk.ofFiles (Effect.applyAll disk.files cut)) =
              (.ok archive', disk') ∧
            archive'.IsSound disk' root (if cut = [] then rows else rows.take blocks) := by
  obtain ⟨rows, hstores⟩ := h.exists_stores hsteps hopen
  refine ⟨rows, hstores.reads, fun blocks hlt => ⟨?_, fun cut hcut settings => ?_⟩⟩
  · obtain ⟨cap, entries, hopen, hblocks, -⟩ := hstores
    obtain ⟨others, -, hperforms⟩ := hopen.exists_performs_truncate hblocks hlt
    exact ⟨_, hperforms⟩
  · obtain ⟨archive', disk', hrun, hstores'⟩ :=
      (hstores.keeps_of_truncate_cutShort hlt hcut).exists_openAt settings
    exact ⟨archive', disk', hrun, hstores'.isSound⟩

/-- Three rows, the items of which take several segments in every table when two bytes fill one. -/
def threeRows : List Row := [1, 2, 3].map fun b => ⟨[b, b], [b], [b, b, b], [b, b], [b, b]⟩

/-- Two of three rows are cut away.  The crash comes when two tables were cut and a third has lost
one of the two segments above its new head, so that the other is left over behind a gap. -/
theorem exists_isSound_of_truncate_threeRows :
    ∃ (archive archive' : Archive) (disk disk' : Disk) (cut : List Effect),
      archive.Reads disk threeRows ∧ Effect.CutShort (performs (truncate 1) archive disk) cut ∧
      cut.length = 9 ∧
      cut.getLast? = some (.removeName ["a", segmentFileName Column.transactions.name 2]) ∧
      (Effect.applyAll disk.files cut).node?
        ["a", segmentFileName Column.transactions.name 3] ≠ none ∧
      (openAt ⟨["", "a"]⟩ { cap := 2 }).outcome (Disk.ofFiles (Effect.applyAll disk.files cut)) =
        (.ok archive', disk') ∧
      archive'.IsSound disk' ⟨["", "a"]⟩ (threeRows.take 1) := by
  have hshort : ∀ row ∈ threeRows, ∀ c ∈ Column.all, (row.get c).length < offsetLimit := by
    decide
  obtain ⟨archive, disk, state, hrun, hstate, hsteps, hstores⟩ :=
    emptyRoot_oneDirectory.exists_steps_appends { cap := 2 } threeRows (by decide)
      fun row hrow c => hshort row hrow c (Column.mem_all c)
  obtain ⟨rows, hreads, hall⟩ :=
    exists_isSound_of_truncate_cutShort emptyRoot_oneDirectory hsteps hstores.closed_eq_false
  obtain rfl := hreads.eq hstores.reads
  have hcheck : (match (openAt ⟨["", "a"]⟩ { cap := 2 }).outcome (Disk.ofFiles oneDirectory) with
      | (.ok archive, disk) =>
          let state := left ⟨["", "a"]⟩ (appends 0 threeRows) (archive, disk)
          let cut := (performs (truncate 1) state.1 state.2).take 9
          decide (cut.length = 9 ∧
            cut.getLast? = some (.removeName ["a", segmentFileName Column.transactions.name 2]) ∧
            (Effect.applyAll state.2.files cut).node?
              ["a", segmentFileName Column.transactions.name 3] ≠ none)
      | (.error _, _) => false) = true := by
    decide +kernel
  rw [hrun] at hcheck
  simp only [← hstate, decide_eq_true_eq] at hcheck
  obtain ⟨hlength, hlast, hleft⟩ := hcheck
  have hcut := Effect.cutShort_take (performs (truncate 1) state.1 state.2) 9
  obtain ⟨archive', disk', hopens, hsound⟩ := (hall 1 (by decide)).2 _ hcut { cap := 2 }
  rw [if_neg (List.ne_nil_of_length_pos (by omega))] at hsound
  exact ⟨state.1, archive', state.2, disk', _, hreads, hcut, hlength, hlast, hleft, hopens, hsound⟩

/-! ### Crashes in the middle of recovery -/

/-- The counters of an open table. -/
def counters (table : Table) : Nat × Nat × Nat × Nat × Nat :=
  (table.items, table.itemOffset, table.tailId, table.headId, table.headBytes)

theorem IsOpen.counters_eq {cap : Nat} {entries : ByColumn (List IndexEntry)}
    {items : ByColumn (List Bytes)} (h : archive.IsOpen disk root place cap entries items)
    (c : Column) :
    counters (archive.tables.get c) = ((items.get c).length, 0,
      (firstOf (entries.get c)).segment.toNat, (lastOf (entries.get c)).segment.toNat,
      (lastOf (entries.get c)).offset.toNat) := by
  have hzero := (h.whole c).firstOf_offset
  have hlength := h.length_entries c
  rw [h.table_eq]
  simp only [counters, opened_items, opened_itemOffset, opened_tailId, opened_headId, hzero]
  rw [opened_headBytes, (h.whole c).headLength, hlength, Nat.add_sub_cancel, Nat.zero_add]

/-- Two open archives have the same counters and give the same answers. -/
structure ShowsSame (archive : Archive) (disk : Disk) (archive' : Archive) (disk' : Disk) :
    Prop where
  blocks : archive'.blocks = archive.blocks
  counters : ∀ c : Column, counters (archive'.tables.get c) = counters (archive.tables.get c)
  get : ∀ (c : Column) (number : Nat), ((get c number).outcome (archive', disk')).1 =
    ((get c number).outcome (archive, disk)).1

theorem Restores.exists_showsSame {entries : ByColumn (List IndexEntry)}
    (h : Restores (files.folder place) entries rows) (hhouses : files.Houses IsFile root place)
    {cap : Nat} (hopen : archive.IsOpen disk root place cap entries (columnsOf rows))
    (hblocks : archive.blocks = rows.length) (settings : Settings) :
    ∃ archive' disk', (openAt root settings).outcome (Disk.ofFiles files) = (.ok archive', disk') ∧
      archive.ShowsSame disk archive' disk' ∧
      archive'.IsOpen disk' root place settings.cap entries (columnsOf rows) := by
  obtain ⟨archive', _, disk', hrun, -, -, -, hopen', hblocks'⟩ :=
    @exists_openAt (Disk.ofFiles files) root place entries rows hhouses rfl h settings
  refine ⟨archive', disk', hrun, ⟨hblocks'.trans hblocks.symm, fun c => ?_, fun c number => ?_⟩,
    hopen'⟩
  · rw [hopen'.counters_eq, hopen.counters_eq]
  · rw [hopen'.outcome_get, hopen.outcome_get]

/-- When opening is interrupted, opening again leads to the same archive; and once it was not
interrupted, it has nothing more to do. -/
theorem exists_showsSame_of_openAt_cutShort {cut : List Effect}
    (hhouses : files.Houses IsFile root place)
    (hdamaged : ∀ c : Column, DamagedAtEnd (files.folder place) c.name)
    (hrun : (openAt root settings).outcome (Disk.ofFiles files) = (.ok archive, disk))
    (hcut : Effect.CutShort disk.effects cut) (settings' : Settings) :
    ∃ archive' disk', (openAt root settings').outcome (Disk.ofFiles (Effect.applyAll files cut)) =
        (.ok archive', disk') ∧ archive.ShowsSame disk archive' disk' ∧
      ∀ settings'', ∃ archive'' disk'',
        (openAt root settings'').outcome (Disk.ofFiles disk'.files) = (.ok archive'', disk'') ∧
          archive.ShowsSame disk archive'' disk'' ∧ disk''.effects = [] := by
  have hrecovers : ∀ c : Column, Recovers (files.folder place) c.name
      (kept (files.folder place) c.name) := fun c =>
    recovers_of_outcome_openAt hhouses rfl hdamaged hrun c
  obtain ⟨entries, rows, hrestores⟩ := exists_restores hrecovers
  obtain ⟨hhouses', hrestores'⟩ := hrestores.of_openAt_cutShort hhouses hrun hcut
  -- the first opening shows the rows that are restored
  obtain ⟨archive₁, _, disk₁, hrun₁, -, -, -, hopen, hblocks⟩ :=
    @exists_openAt (Disk.ofFiles files) root place entries rows hhouses rfl hrestores settings
  rw [hrun] at hrun₁
  obtain ⟨hok, rfl⟩ := Prod.mk.inj hrun₁
  obtain rfl := Except.ok.inj hok
  obtain ⟨archive', disk', hrun', hsame', hopen'⟩ :=
    hrestores'.exists_showsSame hhouses' hopen hblocks settings'
  refine ⟨archive', disk', hrun', hsame', fun settings'' => ?_⟩
  obtain ⟨archive'', disk'', hrun'', hsame'', -⟩ :=
    hopen'.rests.restores.exists_showsSame hopen'.houses hopen hblocks settings''
  refine ⟨archive'', disk'', hrun'', hsame'', ?_⟩
  obtain ⟨_, hquiet⟩ := @Rests.outcome_openAt (Disk.ofFiles disk'.files) root place entries rows
    hopen'.rests hopen'.houses rfl hopen'.lockThere settings''
  rw [hrun''] at hquiet
  rw [(Prod.mk.inj hquiet).2]
  rfl

/-- A directory with the index of one table, of which the last entry reaches past a segment that is
missing, and two bytes more. -/
def tornDirectory : FileSystem where
  names := [(["a"], .directory), (["a", indexFileName Column.hashes.name], .file 0)]
  contents := #[encodeAll [.sentinel, ⟨0, 5⟩] ++ [0, 0]]
  home := []

theorem node?_tornDirectory (file : String) :
    tornDirectory.node? (["a"] ++ [file]) =
      if file = indexFileName Column.hashes.name then some (.file 0) else none := by
  by_cases h : file = indexFileName Column.hashes.name
  · simp [FileSystem.node?, tornDirectory, List.lookup_cons, h]
  · have hb : (file == indexFileName Column.hashes.name) = false := beq_eq_false_iff_ne.2 h
    simp [FileSystem.node?, tornDirectory, List.lookup_cons, h, hb]

theorem houses_tornDirectory : tornDirectory.Houses IsFile ⟨["", "a"]⟩ ["a"] where
  named := by decide +kernel
  directory := by decide
  home := by decide
  entry _ hname := isEntryName_of_isFile hname
  fits name hname := by
    have := utf8ByteSize_le_of_isFile hname
    have : (⟨["", "a"]⟩ : Path).text.utf8ByteSize + maxFileNameBytes < FileSystem.maxPathBytes := by
      decide
    omega
  takes name _ := by
    unfold FileSystem.TakesFile
    rw [node?_tornDirectory]
    split
    · exact .inr ⟨0, rfl⟩
    · exact .inl rfl
  numbered name id hnode := by
    rw [node?_tornDirectory] at hnode
    split at hnode
    · obtain rfl : 0 = id := by simpa using hnode
      decide
    · simp at hnode
  apart a b id ha hb := by
    rw [node?_tornDirectory] at ha hb
    split at ha
    · next heq =>
        split at hb
        · next heq' => rw [heq, heq']
        · simp at hb
    · simp at ha

theorem written_tornDirectory (c : Column) :
    written (tornDirectory.folder ["a"]) c.name =
      if c = .hashes then [.sentinel, ⟨0, 5⟩] else [.sentinel] := by
  unfold written FileSystem.folder
  rw [node?_tornDirectory]
  cases c <;> decide

theorem damagedAtEnd_tornDirectory (c : Column) :
    DamagedAtEnd (tornDirectory.folder ["a"]) c.name := by
  refine ⟨?_, ?_, ?_⟩ <;> rw [written_tornDirectory]
  · cases c <;> rfl
  · cases c <;> simp [Precedes, sentinel]
  · cases c <;> simp [sentinel, lastOf]

/-- Opening a torn directory is interrupted after its first effect. -/
theorem exists_showsSame_tornDirectory :
    ∃ archive disk first archive' disk',
      (openAt ⟨["", "a"]⟩ {}).outcome (Disk.ofFiles tornDirectory) = (.ok archive, disk) ∧
      disk.effects.head? = some first ∧
      (openAt ⟨["", "a"]⟩ {}).outcome (Disk.ofFiles (Effect.applyAll tornDirectory [first])) =
        (.ok archive', disk') ∧ archive.ShowsSame disk archive' disk' := by
  have hcheck : (match (openAt ⟨["", "a"]⟩ {}).outcome (Disk.ofFiles tornDirectory) with
      | (.ok _, disk) => disk.effects.isEmpty
      | (.error _, _) => true) = false := by
    decide +kernel
  split at hcheck
  · next archive disk hrun =>
      obtain ⟨first, others, heffects⟩ : ∃ first others, disk.effects = first :: others :=
        List.exists_cons_of_ne_nil fun hnil => by simp [hnil] at hcheck
      have hcut : Effect.CutShort disk.effects [first] := by
        rw [heffects]
        exact .step first (.stop others)
      obtain ⟨archive', disk', hrun', hsame, -⟩ := exists_showsSame_of_openAt_cutShort
        houses_tornDirectory damagedAtEnd_tornDirectory hrun hcut {}
      exact ⟨archive, disk, first, archive', disk', hrun, by rw [heffects]; rfl, hrun', hsame⟩
  · simp at hcheck

end BlockArchive.Archive
