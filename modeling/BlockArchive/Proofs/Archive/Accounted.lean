import BlockArchive.Proofs.Archive.Lasting
import BlockArchive.Proofs.Archive.Operations
import BlockArchive.Proofs.Table.Filling

/-! # Every byte of an archive is accounted for

As long as no write is cut short, an audit of the files of an archive finds nothing amiss, and their
lengths are those of the items.

* **Events.** `happen` makes an operation happen to an archive, or opens it again, with any
  settings.  `Ledger.afterEvent` says which rows there are then and whether the archive is open, and
  `run` goes through a list of events.
* **`IsAccounted`** is what an audit, the statistics and the lengths of the files have to tell of an
  archive that holds the rows of a ledger.
* **One step.** `StoresFilled` says that the archive holds some rows and that its tables are filled.
  Each event leads from such an archive to such a one (`LiesFilled.happen`), and this one is
  accounted for (`LiesFilled.isAccounted`).
* **A whole run.** So it is after all events (`isAccounted_of_emptyRoot`). -/

namespace BlockArchive

/-- What happens to an archive that was opened. -/
inductive Event where
  | perform (operation : Operation)
  | reopen (settings : Settings)
  /-- The archive is let go of without being closed, and opened again. -/
  | renew (settings : Settings)

/-- Whether the operation leaves the archive and its files as they are. -/
def Operation.changesNothing : Operation → Bool
  | count | get .. | getNamed .. | sync | stats => true
  | append .. | truncate _ | close => false

/-- The ledger after an event that was answered so. -/
def Ledger.afterEvent (ledger : Ledger) : Event → Except Error Unit → Ledger
  | .perform (.append _ row), .ok _ => { ledger with rows := ledger.rows ++ [row] }
  | .perform (.truncate blocks), .ok _ => { ledger with rows := ledger.rows.take blocks }
  | .perform .close, _ => { ledger with isOpen := false }
  | .reopen _, _ => { ledger with isOpen := true }
  | .renew _, _ => { ledger with isOpen := true }
  | _, _ => ledger

namespace Archive

open IndexEntry Table

/-- Makes an event happen to the archive at `root`. -/
def happen (root : Path) : Event → Action (Archive × Disk) Unit
  | .perform operation => operation.perform
  | .reopen settings => do
      let archive ← Attempt.onSecond (openAt root settings)
      Attempt.update fun _ => archive
  | .renew settings => do
      Attempt.onSecond (← Attempt.current).discard
      let archive ← Attempt.onSecond (openAt root settings)
      Attempt.update fun _ => archive

/-- What a list of events leaves, and the ledger that it stands for. -/
def run (root : Path) : List Event → Ledger → Archive × Disk → Ledger × (Archive × Disk)
  | [], ledger, state => (ledger, state)
  | event :: events, ledger, state =>
      run root events (ledger.afterEvent event ((happen root event).outcome state).1)
        ((happen root event).outcome state).2

/-- The bytes of the items of a column. -/
def bytesOf (rows : List Row) (c : Column) : Nat :=
  (rows.map fun row => (row.get c).length).sum

/-- The report of an audit that finds an archive to hold just these rows. -/
def reportOf (root : Path) (archive : Archive) (rows : List Row) : ArchiveReport where
  path := root
  tables := Column.all.map fun c => {
    name := c.name
    items := rows.length
    tailId := (archive.tables.get c).tailId
    headId := (archive.tables.get c).headId
    dataBytes := bytesOf rows c
    findings := [] }

/-- The statistics of an archive that holds just these rows. -/
def statsOfRows (archive : Archive) (rows : List Row) : List TableStats :=
  Column.all.map fun c => {
    name := c.name
    items := rows.length
    headId := (archive.tables.get c).headId
    headBytes := (archive.tables.get c).headBytes
    size := width * (rows.length + 1) + bytesOf rows c }

/-- An open archive tells of these rows. -/
structure Tells (archive : Archive) (disk : Disk) (rows : List Row) : Prop where
  count : count.outcome (archive, disk) = (.ok rows.length, (archive, disk))
  get : ∀ (c : Column) (number : Nat), (get c number).outcome (archive, disk) =
    (itemAnswer (rows.map fun row => row.get c) (itemOf number), (archive, disk))
  stats : stats.outcome (archive, disk) = (.ok (archive.statsOfRows rows), (archive, disk))

/-- All that can be asked of an archive and seen of its files is what the ledger accounts for. -/
structure IsAccounted (root : Path) (ledger : Ledger) (archive : Archive) (disk : Disk) :
    Prop where
  blocks : archive.blocks = ledger.rows.length
  closed : archive.closed = !ledger.isOpen
  tells : ledger.isOpen = true → archive.Tells disk ledger.rows
  audit : Audit.archive disk.files root = .ok (reportOf root archive ledger.rows)
  /-- Neither in a table nor between the tables anything is amiss. -/
  clean : (reportOf root archive ledger.rows).findingCount = 0
  headBytes : ∀ c : Column, disk.files.length
      (root.join (segmentFileName c.name (archive.tables.get c).headId)) =
    .ok (archive.tables.get c).headBytes
  /-- Each segment ends with the last item that the index has in it. -/
  segments : ∀ c : Column, ∃ data,
    disk.files.read (root.join (indexFileName c.name)) = .ok data ∧
    ∀ id, (archive.tables.get c).tailId ≤ id → id ≤ (archive.tables.get c).headId →
      disk.files.length (root.join (segmentFileName c.name id)) =
        .ok (endIn ((Audit.entries data).drop 1) id)

variable {archive : Archive} {disk disk' : Disk} {root : Path} {place : Location} {cap : Nat}
  {entries : ByColumn (List IndexEntry)} {items : ByColumn (List Bytes)} {rows : List Row}
  {files : FileSystem} {state : Archive × Disk} {ledger : Ledger}

/-! ### Filled tables -/

theorem lasts_fills (cap : Nat) : Lasts cap fun folder name entries _ =>
    Fills folder name entries where
  congr h hsame := h.congr hsame
  appending h hwhole htable hroom := h.appending hwhole htable hroom
  cutting h hwhole hlength hn := h.cutting hwhole (by omega)

/-- The archive is open and holds just these rows, and its tables are filled. -/
def StoresFilled (archive : Archive) (disk : Disk) (root : Path) (place : Location) (cap : Nat)
    (rows : List Row) : Prop :=
  archive.StoresWith (fun folder name entries _ => Fills folder name entries) disk root place cap
    rows

theorem StoresFilled.outcome_discard (h : archive.StoresFilled disk root place cap rows) :
    archive.discard.outcome disk = (.ok (), { disk with locked := [] }) := by
  obtain ⟨entries, hopen, -⟩ := h
  exact Archive.outcome_discard hopen.lock hopen.locked List.not_mem_nil

/-- An archive that is opened in an empty directory has no rows, and its tables are filled. -/
theorem EmptyRoot.exists_storesFilled (h : EmptyRoot files root place) (settings : Settings) :
    ∃ archive disk cap, (openAt root settings).outcome (Disk.ofFiles files) =
        (.ok archive, disk) ∧ archive.StoresFilled disk root place cap [] := by
  obtain ⟨archive, disk, hrun, cap, entries, hopen, hblocks, hclimbs⟩ :=
    h.keeps.exists_openAt settings
  refine ⟨archive, disk, cap, hrun, entries, hopen, hblocks, hclimbs, fun c => ?_⟩
  refine Fills.of_no_items (hopen.whole c) ?_
  rw [hopen.length_entries, get_columnsOf]
  rfl

/-! ### What an archive with filled tables tells -/

theorem get_shut (archive : Archive) (c : Column) :
    archive.shut.tables.get c = { archive.tables.get c with index := none, segments := [] } := by
  rw [shut, closedIn, ByColumn.get_ofFn, if_pos (Column.mem_all c)]

section opened

variable (h : archive.IsOpen disk root place cap entries (columnsOf rows))
include h

theorem IsOpen.items_eq (c : Column) : (archive.tables.get c).items = rows.length := by
  rw [h.table_eq, opened_items, (h.whole c).firstOf_offset, h.rests.length_entries]
  omega

/-- The segments of filled tables have the bytes of the items. -/
theorem IsOpen.dataLength_eq
    (hfills : ∀ c : Column, Fills (disk.files.folder place) c.name (entries.get c)) (c : Column) :
    dataLength (disk.files.folder place) c.name (firstOf (entries.get c)).segment.toNat
      (lastOf (entries.get c)).segment.toNat = bytesOf rows c := by
  rw [(hfills c).dataLength_eq (h.whole c).toBacked, h.items, get_columnsOf, List.map_map, bytesOf]
  rfl

theorem IsOpen.outcome_stats
    (hfills : ∀ c : Column, Fills (disk.files.folder place) c.name (entries.get c)) :
    stats.outcome (archive, disk) = (.ok (archive.statsOfRows rows), (archive, disk)) := by
  rw [h.isOpenOn.outcome_stats, statsOfRows]
  congr 2
  refine List.map_congr_left fun c _ => ?_
  rw [statsIn, h.items_eq, bytesIn_eq (h.whole c).tail_le_head, h.rests.length_entries,
    h.dataLength_eq hfills]

theorem IsOpen.audit_eq
    (hfills : ∀ c : Column, Fills (disk.files.folder place) c.name (entries.get c)) :
    Audit.archive disk.files root = .ok (reportOf root archive rows) := by
  have htable : ∀ c : Column, Audit.table disk.files root c.name = .ok ⟨c.name, rows.length,
      (archive.tables.get c).tailId, (archive.tables.get c).headId, bytesOf rows c, []⟩ := by
    intro c
    rw [Audit.table_eq (h.whole c).indexed h.houses.shows fun _ hfile =>
        isFile_of_isFileOf (hfile.isFileOf (h.whole c).head_le),
      Audit.headFindings, if_pos (h.whole c).headLength, (h.whole c).firstOf_offset,
      h.rests.length_entries, h.dataLength_eq hfills, h.table_eq, Nat.zero_add,
      Nat.add_sub_cancel, opened_tailId, opened_headId]
  exact Audit.archive_eq htable

end opened

theorem findingCount_reportOf (root : Path) (archive : Archive) (rows : List Row) :
    (reportOf root archive rows).findingCount = 0 :=
  Audit.findingCount_eq_zero (fun _ => rfl) fun _ => rfl

/-- An open archive with filled tables is accounted for. -/
theorem StoresFilled.isAccounted (h : archive.StoresFilled disk root place cap rows) :
    IsAccounted root ⟨rows, true⟩ archive disk := by
  have hcount := h.stores.outcome_count
  obtain ⟨entries, hopen, hblocks, -, hfills⟩ := h
  have hlength : ∀ (c : Column) (id : Nat), (archive.tables.get c).tailId ≤ id →
      id ≤ (archive.tables.get c).headId →
      disk.files.length (root.join (segmentFileName c.name id)) =
        .ok (segmentBytes (disk.files.folder place) c.name id).length := by
    intro c id hlow hhigh
    rw [hopen.table_eq, opened_tailId] at hlow
    rw [hopen.table_eq, opened_headId] at hhigh
    obtain ⟨content, hcontent⟩ := Option.ne_none_iff_exists'.1
      ((hopen.whole c).indexed.there hlow hhigh)
    rw [segmentBytes, hcontent, Option.getD_some]
    exact hopen.houses.shows.length (isFile_of_isFileOf
      (isFileOf_segment _ (Nat.le_trans hhigh (hopen.whole c).head_le))) hcontent
  refine ⟨hblocks, hopen.closed, fun _ => ⟨hcount, fun c number => ?_, hopen.outcome_stats hfills⟩,
    hopen.audit_eq hfills, findingCount_reportOf _ _ _, fun c => ?_, fun c => ?_⟩
  · rw [hopen.outcome_get, get_columnsOf]
  · have hle := (hopen.whole c).tail_le_head
    rw [hlength c _ (by rwa [hopen.table_eq, opened_tailId, opened_headId]) (Nat.le_refl _),
      hopen.table_eq, opened_headId, opened_headBytes]
  · refine ⟨_, hopen.houses.shows.read (isFile_of_isFileOf (isFileOf_index _))
      (hopen.whole c).index, fun id hlow hhigh => ?_⟩
    rw [hlength c id hlow hhigh, Audit.entries_encodeAll (hopen.whole c).storable]
    rw [hopen.table_eq, opened_tailId] at hlow
    rw [hopen.table_eq, opened_headId] at hhigh
    rw [hfills c id hlow hhigh]

theorem IsAccounted.shut (h : IsAccounted root ⟨rows, true⟩ archive disk) :
    IsAccounted root ⟨rows, false⟩ archive.shut { disk with locked := [] } := by
  have hreport : reportOf root archive.shut rows = reportOf root archive rows := by
    simp only [reportOf, get_shut]
  refine ⟨h.blocks, rfl, by simp, ?_, ?_, fun c => ?_, fun c => ?_⟩
  · rw [hreport]
    exact h.audit
  · rw [hreport]
    exact h.clean
  · rw [get_shut]
    exact h.headBytes c
  · rw [get_shut]
    exact h.segments c

/-! ### One step -/

/-- The archive holds the rows of the ledger in filled tables, or was closed when it did. -/
inductive LiesFilled (root : Path) (place : Location) : Ledger → Archive × Disk → Prop where
  | opened {archive : Archive} {disk : Disk} {cap : Nat} {rows : List Row}
      (h : archive.StoresFilled disk root place cap rows) :
      LiesFilled root place ⟨rows, true⟩ (archive, disk)
  | closed {archive : Archive} {disk : Disk} {cap : Nat} {rows : List Row}
      (h : archive.StoresFilled disk root place cap rows) :
      LiesFilled root place ⟨rows, false⟩ (archive.shut, { disk with locked := [] })

theorem LiesFilled.isAccounted (h : LiesFilled root place ledger state) :
    IsAccounted root ledger state.1 state.2 := by
  cases h with
  | opened h => exact h.isAccounted
  | closed h => exact h.isAccounted.shut

theorem IsOpenOn.outcome_sync {names : String → Prop}
    (h : archive.IsOpenOn names disk root place cap entries) :
    sync.outcome (archive, disk) = (.ok (), (archive, disk)) := by
  unfold sync
  rw [Attempt.outcome_bind_ok (outcome_ensureOpen h.closed disk)]
  refine outcome_forM fun c _ => ?_
  rw [Archive.onTable, Attempt.outcome_onFirst, h.table_eq,
    Table.outcome_sync (opened_index _ _ _ _ _ _), ← h.table_eq]
  simp only [set_tables_get]

/-- What an archive answers to a question is left out, and nothing else happens. -/
theorem outcome_ask {α : Type} {action : Action (Archive × Disk) α} {answer : Except Error α}
    (h : action.outcome state = (answer, state)) :
    ((do let _ ← action : Action (Archive × Disk) Unit).outcome state).2 = state := by
  rw [Attempt.outcome_bind, h]
  cases answer <;> rfl

theorem StoresFilled.outcome_changesNothing (h : archive.StoresFilled disk root place cap rows)
    {operation : Operation} (hnothing : operation.changesNothing = true) :
    (operation.perform.outcome (archive, disk)).2 = (archive, disk) := by
  have hcount := h.stores.outcome_count
  obtain ⟨entries, hopen, -, -, hfills⟩ := h
  cases operation with
  | count => exact outcome_ask hcount
  | get c number => exact outcome_ask (hopen.outcome_get c number)
  | getNamed name number =>
      cases hname : Column.ofName? name with
      | some c =>
          exact outcome_ask ((outcome_getNamed hname number).trans (hopen.outcome_get c number))
      | none => exact outcome_ask (outcome_getNamed_of_none hname number)
  | sync => exact congrArg Prod.snd hopen.isOpenOn.outcome_sync
  | stats => exact outcome_ask (hopen.outcome_stats hfills)
  | append | truncate | close => simp [Operation.changesNothing] at hnothing

theorem afterEvent_of_changesNothing {operation : Operation}
    (hnothing : operation.changesNothing = true) (answer : Except Error Unit) :
    ledger.afterEvent (.perform operation) answer = ledger := by
  cases operation <;> first | rfl | simp [Operation.changesNothing] at hnothing

theorem afterEvent_answerClosed (rows : List Row) (operation : Operation) :
    Ledger.afterEvent ⟨rows, false⟩ (.perform operation) operation.answerClosed =
      ⟨rows, false⟩ := by
  cases operation <;> rfl

theorem outcome_put {opened : Archive} {settings : Settings} (archive : Archive)
    (h : (openAt root settings).outcome disk = (.ok opened, disk')) :
    (do
      let archive ← Attempt.onSecond (openAt root settings)
      Attempt.update fun _ => archive : Action (Archive × Disk) Unit).outcome (archive, disk) =
        (.ok (), (opened, disk')) := by
  rw [Attempt.outcome_bind_ok (Attempt.outcome_onSecond_of h _)]
  rfl

theorem outcome_renew {opened : Archive} {settings : Settings} {free : Disk}
    (hdiscard : archive.discard.outcome disk = (.ok (), free))
    (hrun : (openAt root settings).outcome free = (.ok opened, disk')) :
    (happen root (.renew settings)).outcome (archive, disk) = (.ok (), (opened, disk')) := by
  rw [happen, Attempt.outcome_bind_ok (Attempt.outcome_current _ _),
    Attempt.outcome_bind_ok (Attempt.outcome_onSecond_of hdiscard _), outcome_put _ hrun]

/-- An operation leads from an open archive with filled tables to such a one, or closes it. -/
theorem StoresFilled.perform (h : archive.StoresFilled disk root place cap rows)
    (operation : Operation) :
    LiesFilled root place
      (Ledger.afterEvent ⟨rows, true⟩ (.perform operation)
        (operation.perform.outcome (archive, disk)).1)
      (operation.perform.outcome (archive, disk)).2 := by
  by_cases hnothing : operation.changesNothing = true
  · rw [afterEvent_of_changesNothing hnothing, h.outcome_changesNothing hnothing]
    exact .opened h
  cases operation with
  | append number row =>
      rw [Operation.perform]
      by_cases hnumber : number = rows.length
      · subst hnumber
        obtain ⟨answer, archive', disk', hrun, ⟨rfl, hadded⟩ | ⟨⟨e, rfl⟩, hrefused, -⟩⟩ :=
          h.exists_append (lasts_fills cap) row
        · rw [hrun]
          exact .opened hadded
        · rw [hrun]
          exact .opened hrefused
      · rw [h.stores.outcome_append_of_ne hnumber]
        exact .opened h
  | truncate blocks =>
      obtain ⟨archive', disk', hrun, hcut⟩ := h.exists_truncate (lasts_fills cap) blocks
      rw [Operation.perform, hrun]
      exact .opened hcut
  | close =>
      rw [Operation.perform, h.outcome_close]
      exact .closed h
  | count | get | getNamed | sync | stats => exact absurd rfl hnothing

/-- An event leads from an archive with filled tables to such a one. -/
theorem LiesFilled.happen (h : LiesFilled root place ledger state) (event : Event) :
    LiesFilled root place (ledger.afterEvent event ((happen root event).outcome state).1)
      ((happen root event).outcome state).2 := by
  cases h with
  | @opened archive disk cap rows h =>
      cases event with
      | perform operation => exact h.perform operation
      | reopen settings =>
          rw [Archive.happen, Attempt.outcome_bind_error
            (Attempt.outcome_onSecond_of (h.stores.outcome_openAt settings) _)]
          exact .opened h
      | renew settings =>
          obtain ⟨archive', hrun, hopened⟩ := h.exists_openAt settings
          rw [outcome_renew h.outcome_discard hrun]
          exact .opened hopened
  | @closed archive disk cap rows h =>
      cases event with
      | perform operation =>
          rw [Archive.happen, Operation.outcome_of_closed rfl, afterEvent_answerClosed]
          exact .closed h
      | reopen settings =>
          obtain ⟨archive', hrun, hopened⟩ := h.exists_openAt settings
          rw [Archive.happen, outcome_put _ hrun]
          exact .opened hopened
      | renew settings =>
          obtain ⟨archive', hrun, hopened⟩ := h.exists_openAt settings
          -- there is no lock to give back
          have hdiscard : archive.shut.discard.outcome { disk with locked := [] } =
              (.ok (), { disk with locked := [] }) := rfl
          rw [outcome_renew hdiscard hrun]
          exact .opened hopened

/-! ### A whole run -/

theorem LiesFilled.run (h : LiesFilled root place ledger state) (events : List Event) :
    LiesFilled root place (run root events ledger state).1 (run root events ledger state).2 := by
  induction events generalizing ledger state with
  | nil => exact h
  | cons event events ih => exact ih (h.happen event)

/-- Whatever happened to an archive since it was opened in an empty directory, an audit finds
nothing amiss, and every byte of its tables is one of their indexes or of the items that they
hold. -/
theorem isAccounted_of_emptyRoot (h : EmptyRoot files root place) (settings : Settings) :
    ∃ archive disk, (openAt root settings).outcome (Disk.ofFiles files) = (.ok archive, disk) ∧
      ∀ events, IsAccounted root (run root events ⟨[], true⟩ (archive, disk)).1
        (run root events ⟨[], true⟩ (archive, disk)).2.1
        (run root events ⟨[], true⟩ (archive, disk)).2.2 := by
  obtain ⟨archive, disk, cap, hrun, hfilled⟩ := h.exists_storesFilled settings
  exact ⟨archive, disk, hrun, fun events => ((LiesFilled.opened hfilled).run events).isAccounted⟩

/-- The first segment of the hashes is left empty, as the first hash is longer than the cap.  Two
rows are appended and the second is cut away before the archive is closed; then it is opened with
another cap, and again without having been closed. -/
def comingAndGoing : List Event :=
  [.perform (.append 0 ⟨[1, 2, 3], [4], [], [5, 6], []⟩),
    .perform (.append 1 ⟨[7], [8, 9], [10], [], [11]⟩), .perform .stats, .perform (.truncate 1),
    .perform .close, .reopen { cap := 100 }, .perform (.append 1 ⟨[12], [], [13], [14], [15]⟩),
    .renew { cap := 0 }, .perform .sync, .perform (.append 3 ⟨[], [], [], [], []⟩)]

theorem isAccounted_oneDirectory :
    ∃ archive disk, (openAt ⟨["", "a"]⟩ { cap := 2 }).outcome (Disk.ofFiles oneDirectory) =
        (.ok archive, disk) ∧
      IsAccounted ⟨["", "a"]⟩ (run ⟨["", "a"]⟩ comingAndGoing ⟨[], true⟩ (archive, disk)).1
        (run ⟨["", "a"]⟩ comingAndGoing ⟨[], true⟩ (archive, disk)).2.1
        (run ⟨["", "a"]⟩ comingAndGoing ⟨[], true⟩ (archive, disk)).2.2 := by
  obtain ⟨archive, disk, hrun, hall⟩ := isAccounted_of_emptyRoot emptyRoot_oneDirectory { cap := 2 }
  exact ⟨archive, disk, hrun, hall comingAndGoing⟩

end Archive

end BlockArchive
