import BlockArchive.Proofs.Archive.Appending
import BlockArchive.Proofs.Auditing

/-! # What an open archive answers

* **`Stores`**: the archive is open, and its tables hold just these rows.
* **Reading** changes nothing (`IsOpen.outcome_get`).  `Reads` says what can be read of an archive.
* **Appending** adds the row, or is refused by one of the tables and leaves the rows as they are
  (`Stores.exists_append`).
* **Cutting** keeps the first rows (`Stores.exists_truncate`), and **closing** gives the lock back
  and leaves tables at rest (`Stores.exists_close`). -/

namespace BlockArchive.Archive

open IndexEntry Table

variable {names : String → Prop} {archive : Archive} {disk : Disk} {root : Path} {place : Location}
  {cap : Nat} {entries : ByColumn (List IndexEntry)} {items : ByColumn (List Bytes)}
  {rows : List Row} {row : Row} {number : Nat} {c : Column}

/-- The archive is open, and its tables hold just these rows and were made without leaving out
segments. -/
def Stores (archive : Archive) (disk : Disk) (root : Path) (place : Location) (rows : List Row) :
    Prop :=
  ∃ cap entries, archive.IsOpen disk root place cap entries (columnsOf rows) ∧
    archive.blocks = rows.length ∧ ∀ c : Column, Climbs (entries.get c)

/-! ### Reading -/

/-- An open archive answers with the items that it holds, and refuses all other numbers. -/
theorem IsOpenOn.outcome_get (h : archive.IsOpenOn names disk root place cap entries)
    (hfirst : (firstOf (entries.get c)).offset = 0) (number : Nat) :
    (get c number).outcome (archive, disk) =
      (itemAnswer (storedItems (disk.files.folder place) c.name (entries.get c)) (itemOf number),
        (archive, disk)) := by
  unfold get
  rw [Attempt.outcome_bind_ok (outcome_ensureOpen h.closed disk), Archive.onTable,
    Attempt.outcome_onFirst, h.table_eq, outcome_retrieve ((h.intact c).whole hfirst),
    ← h.table_eq]
  simp only [set_tables_get]

theorem IsOpen.outcome_get (h : archive.IsOpen disk root place cap entries items) (c : Column)
    (number : Nat) :
    (get c number).outcome (archive, disk) =
      (itemAnswer (items.get c) (itemOf number), (archive, disk)) := by
  rw [h.isOpenOn.outcome_get (h.whole c).unpruned, h.items]

/-- What an open archive tells of the table of a column. -/
def statsIn (archive : Archive) (folder : Folder) (entries : ByColumn (List IndexEntry))
    (c : Column) : TableStats where
  name := c.name
  items := (archive.tables.get c).items
  headId := (archive.tables.get c).headId
  headBytes := (archive.tables.get c).headBytes
  size := bytesIn folder c.name (entries.get c)

theorem IsOpenOn.outcome_stats (h : archive.IsOpenOn names disk root place cap entries) :
    stats.outcome (archive, disk) =
      (.ok (Column.all.map (archive.statsIn (disk.files.folder place) entries)),
        (archive, disk)) := by
  have hsize : ∀ c : Column, (Archive.onTable c Table.size).outcome (archive, disk) =
      (.ok (bytesIn (disk.files.folder place) c.name (entries.get c)), (archive, disk)) := by
    intro c
    rw [Archive.onTable, Attempt.outcome_onFirst, h.table_eq,
      outcome_size (h.intact c).indexed, ← h.table_eq]
    simp only [set_tables_get]
  unfold stats
  rw [Attempt.outcome_bind_ok (outcome_ensureOpen h.closed disk)]
  refine outcome_mapM fun c _ => ?_
  unfold statsOf
  rw [Attempt.outcome_bind_ok (hsize c), Attempt.outcome_bind_ok (Attempt.outcome_current _ _),
    Attempt.outcome_pure, statsIn]
  simp only [h.table_eq, opened_name]

theorem Stores.outcome_count (h : archive.Stores disk root place rows) :
    count.outcome (archive, disk) = (.ok rows.length, (archive, disk)) := by
  obtain ⟨cap, entries, hopen, hblocks, -⟩ := h
  unfold count
  rw [Attempt.outcome_bind_ok (outcome_ensureOpen hopen.closed disk),
    Attempt.outcome_bind_ok (Attempt.outcome_current _ _), hblocks]
  rfl

/-! ### Appending -/

theorem climbs_takeIn (h : ∀ c : Column, Climbs (entries.get c)) (n : Nat) (c : Column) :
    Climbs ((takeIn Column.all n entries).get c) := by
  rw [get_takeIn_all]
  exact (h c).take n

/-- A row with another number than the next one is refused. -/
theorem Stores.outcome_append_of_ne (h : archive.Stores disk root place rows)
    (hnumber : number ≠ rows.length) (row : Row) :
    (append number row).outcome (archive, disk) =
      (.error (.sequence rows.length number), (archive, disk)) := by
  obtain ⟨cap, entries, hopen, hblocks, -⟩ := h
  rw [Archive.outcome_append_of_ne hopen.closed (hblocks ▸ hnumber), hblocks]

/-- A row is added, or it is refused by a table and nothing is added. -/
theorem Stores.exists_append (h : archive.Stores disk root place rows) (row : Row) :
    ∃ answer archive' disk',
      (append rows.length row).outcome (archive, disk) = (answer, (archive', disk')) ∧
      (answer = .ok () ∧ archive'.Stores disk' root place (rows ++ [row]) ∨
        ∃ e, answer = .error e ∧ Refuses rows.length row e ∧
          archive'.Stores disk' root place rows) := by
  obtain ⟨cap, entries, hopen, hblocks, hclimbs⟩ := h
  by_cases hroom : ∀ c : Column, (archive.tables.get c).HasRoom (row.get c).length
  · obtain ⟨archive', disk', hrun, -, hopen', hblocks'⟩ := hopen.exists_append hblocks hroom
    refine ⟨_, archive', disk', hrun, .inl ⟨rfl, cap, _, hopen', hblocks', fun c => ?_⟩⟩
    rw [get_addedIn, if_pos (Column.mem_all c)]
    exact (hopen.whole c).indexed.climbs_appending (hopen.table_eq c) (hclimbs c) (hroom c)
  · obtain ⟨e, -, -, archive', disk', -, -, hrun, hrefuses, -, -, -, -, hopen', hblocks'⟩ :=
      hopen.exists_refused hblocks hclimbs hroom
    exact ⟨_, archive', disk', hrun,
      .inr ⟨e, rfl, hrefuses, cap, entries, hopen', hblocks', hclimbs⟩⟩

theorem Stores.exists_append_of_short (h : archive.Stores disk root place rows)
    (hrows : rows.length < lastSegmentId)
    (hshort : ∀ c : Column, (row.get c).length < offsetLimit) :
    ∃ archive' disk', (append rows.length row).outcome (archive, disk) =
        (.ok (), (archive', disk')) ∧
      archive'.Stores disk' root place (rows ++ [row]) := by
  obtain ⟨answer, archive', disk', hrun, ⟨rfl, hstores⟩ | ⟨e, -, hrefuses, -⟩⟩ :=
    h.exists_append row
  · exact ⟨archive', disk', hrun, hstores⟩
  · cases hrefuses with
    | exhausted c hlast => exact absurd hrows (Nat.not_lt.2 hlast)
    | tooLarge c hlarge => exact absurd (hshort c) (Nat.not_lt.2 hlarge)

/-! ### Cutting -/

theorem Stores.outcome_truncate_of_le (h : archive.Stores disk root place rows) {blocks : Nat}
    (hle : rows.length ≤ blocks) :
    (truncate blocks).outcome (archive, disk) = (.ok (), (archive, disk)) := by
  obtain ⟨cap, entries, hopen, hblocks, -⟩ := h
  unfold truncate
  rw [Attempt.outcome_bind_ok (outcome_ensureOpen hopen.closed disk),
    Attempt.outcome_bind_ok (Attempt.outcome_current _ _), hblocks, if_pos hle]
  rfl

/-- If there are more rows than are to stay, the tables are cut to the first of them. -/
theorem IsOpen.exists_truncate (h : archive.IsOpen disk root place cap entries (columnsOf rows))
    (hblocks : archive.blocks = rows.length) {blocks : Nat} (hlt : blocks < rows.length) :
    ∃ archive' disk', (truncate blocks).outcome (archive, disk) = (.ok (), (archive', disk')) ∧
      disk' = disk.after place (cuttingAll entries blocks) ∧
      archive'.IsOpen disk' root place cap (takeIn Column.all (blocks + 1) entries)
        (columnsOf (rows.take blocks)) ∧
      archive'.blocks = (rows.take blocks).length ∧
      Folder.Each (Mends blocks) (disk.files.folder place) (cuttingAll entries blocks) := by
  obtain ⟨archive', disk', hrun, hdisk', hopen', -, heach⟩ :=
    h.exists_cutColumns blocks (show Column.all.Nodup by decide)
  have hrows : takeIn Column.all blocks (columnsOf rows) = columnsOf (rows.take blocks) := by
    refine ByColumn.ext_get fun c => ?_
    rw [get_takeIn_all, get_columnsOf, get_columnsOf, List.map_take]
  rw [hrows] at hopen'
  refine ⟨{ archive' with blocks }, disk', ?_, hdisk', hopen'.with_blocks blocks, ?_, heach⟩
  · unfold truncate
    rw [Attempt.outcome_bind_ok (outcome_ensureOpen h.closed disk),
      Attempt.outcome_bind_ok (Attempt.outcome_current _ _), hblocks, if_neg (Nat.not_le.2 hlt),
      cutTables, Attempt.outcome_bind_ok hrun]
    rfl
  · rw [List.length_take, Nat.min_eq_left (Nat.le_of_lt hlt)]

theorem Stores.exists_truncate (h : archive.Stores disk root place rows) (blocks : Nat) :
    ∃ archive' disk', (truncate blocks).outcome (archive, disk) = (.ok (), (archive', disk')) ∧
      archive'.Stores disk' root place (rows.take blocks) := by
  by_cases hle : rows.length ≤ blocks
  · refine ⟨archive, disk, h.outcome_truncate_of_le hle, ?_⟩
    rwa [List.take_of_length_le hle]
  · obtain ⟨cap, entries, hopen, hblocks, hclimbs⟩ := h
    obtain ⟨archive', disk', hrun, -, hopen', hblocks', -⟩ :=
      hopen.exists_truncate hblocks (Nat.lt_of_not_le hle)
    exact ⟨archive', disk', hrun, cap, _, hopen', hblocks', climbs_takeIn hclimbs _⟩

/-! ### Closing -/

/-- Nobody works on the files at `place`, and they hold just these rows and were made without
leaving out segments. -/
def Keeps (disk : Disk) (root : Path) (place : Location) (rows : List Row) : Prop :=
  disk.files.Houses IsFile root place ∧ disk.locked = [] ∧
    ∃ entries, Restores (disk.files.folder place) entries rows ∧
      ∀ c : Column, Climbs (entries.get c)

/-- The tables, those of the columns of a list closed. -/
def closedIn (columns : List Column) (tables : ByColumn Table) : ByColumn Table :=
  .ofFn fun c =>
    if c ∈ columns then { tables.get c with index := none, segments := [] } else tables.get c

/-- The archive that closing leaves. -/
def shut (archive : Archive) : Archive :=
  { archive with closed := true, lock := none, tables := closedIn Column.all archive.tables }

theorem outcome_closeTables {columns : List Column} (hnodup : columns.Nodup)
    (h : ∀ c ∈ columns, (archive.tables.get c).index ≠ none) :
    (columns.filterMapM closeTable).outcome (archive, disk) =
      (.ok [], ({ archive with tables := closedIn columns archive.tables }, disk)) := by
  induction columns generalizing archive with
  | nil =>
      have htables : closedIn [] archive.tables = archive.tables :=
        ByColumn.ext_get fun c => by simp [closedIn]
      rw [htables]
      rfl
  | cons c columns ih =>
      obtain ⟨hc, hnodup⟩ := List.nodup_cons.1 hnodup
      have hrun : (closeTable c).outcome (archive, disk) = (.ok none, ({ archive with
          tables := archive.tables.set c
            { archive.tables.get c with index := none, segments := [] } }, disk)) := by
        unfold closeTable
        rw [Attempt.outcome_tryCatch, Attempt.outcome_bind, Archive.onTable,
          Attempt.outcome_onFirst, Table.outcome_close (h c List.mem_cons_self)]
        rfl
      have hrest := @ih { archive with
          tables := archive.tables.set c
            { archive.tables.get c with index := none, segments := [] } } hnodup fun d hd => by
        simp only
        rw [ByColumn.get_set_ne _ _ fun hdc : d = c => hc (hdc ▸ hd)]
        exact h d (List.mem_cons_of_mem _ hd)
      have htables : closedIn columns (archive.tables.set c
          { archive.tables.get c with index := none, segments := [] }) =
            closedIn (c :: columns) archive.tables := by
        refine ByColumn.ext_get fun d => ?_
        rw [closedIn, closedIn, ByColumn.get_ofFn, ByColumn.get_ofFn]
        by_cases hdc : d = c
        · rw [hdc, if_neg hc, if_pos List.mem_cons_self, ByColumn.get_set_same]
        · simp only [List.mem_cons, hdc, false_or, ByColumn.get_set_ne _ _ hdc]
      rw [List.filterMapM_cons, Attempt.outcome_bind_ok hrun, ← htables]
      exact hrest

/-- Closing gives the lock back and leaves the files as they are. -/
theorem IsOpenOn.outcome_close (h : archive.IsOpenOn names disk root place cap entries) :
    close.outcome (archive, disk) = (.ok (), (archive.shut, { disk with locked := [] })) := by
  have hclose := @outcome_closeTables { archive with closed := true } disk Column.all
    (by decide) fun c _ => by
      change (archive.tables.get c).index ≠ none
      rw [h.table_eq, opened_index]
      simp
  have hrelease : (lockOn disk.files place root).release.outcome disk =
      (.ok (), { disk with locked := [] }) := by
    unfold DirectoryLock.release lockOn Handle.unlock
    rw [Attempt.outcome_modify, h.locked]
    simp
  unfold close
  rw [Attempt.outcome_bind_ok (Attempt.outcome_current _ _), h.closed]
  simp only [Bool.false_eq_true, if_false]
  rw [Attempt.outcome_bind_ok (Attempt.outcome_update _ _ _), Attempt.outcome_bind_ok hclose]
  simp only [h.lock]
  rw [Attempt.outcome_bind_ok (Attempt.outcome_update _ _ _),
    Attempt.outcome_bind_ok (Attempt.outcome_onSecond_of hrelease _)]
  rfl

theorem IsOpen.outcome_close (h : archive.IsOpen disk root place cap entries items) :
    close.outcome (archive, disk) = (.ok (), (archive.shut, { disk with locked := [] })) :=
  h.isOpenOn.outcome_close

theorem Stores.exists_close (h : archive.Stores disk root place rows) :
    ∃ archive' disk', close.outcome (archive, disk) = (.ok (), (archive', disk')) ∧
      archive'.closed = true ∧ Keeps disk' root place rows := by
  obtain ⟨cap, entries, hopen, -, hclimbs⟩ := h
  exact ⟨archive.shut, _, hopen.outcome_close, rfl, hopen.houses, rfl, entries,
    hopen.rests.restores, hclimbs⟩

theorem outcome_close_of_closed (h : archive.closed = true) (disk : Disk) :
    close.outcome (archive, disk) = (.ok (), (archive, disk)) := by
  unfold close
  rw [Attempt.outcome_bind_ok (Attempt.outcome_current _ _), if_pos h]
  rfl

/-! ### Opening again -/

/-- Files that nobody works on can be opened, and then show the rows that they hold. -/
theorem Keeps.exists_openAt (h : Keeps disk root place rows) (settings : Settings) :
    ∃ archive disk', (openAt root settings).outcome disk = (.ok archive, disk') ∧
      archive.Stores disk' root place rows := by
  obtain ⟨hhouses, hlocked, entries, hrestores, hclimbs⟩ := h
  obtain ⟨archive, changes, disk', hrun, -, -, -, hopen, hblocks⟩ :=
    Archive.exists_openAt hhouses hlocked hrestores settings
  exact ⟨archive, disk', hrun, _, _, hopen, hblocks, hclimbs⟩

theorem Stores.outcome_openAt (h : archive.Stores disk root place rows) (settings : Settings) :
    (openAt root settings).outcome disk =
      (.error (.locked (root.join DirectoryLock.fileName)), disk) := by
  obtain ⟨cap, entries, hopen, -⟩ := h
  refine outcome_openAt_of_locked hopen.houses hopen.lockThere ?_ settings
  rw [hopen.locked]
  exact List.mem_singleton_self _

/-! ### What is seen of an archive -/

/-- The rows that can be read of an archive. -/
structure Reads (archive : Archive) (disk : Disk) (rows : List Row) : Prop where
  count : count.outcome (archive, disk) = (.ok rows.length, (archive, disk))
  /-- Every table holds just as many items. -/
  items : ∀ c : Column, (archive.tables.get c).items = rows.length
  get : ∀ (c : Column) (n : Nat) (h : n < rows.length),
    (get c (n + 1)).outcome (archive, disk) = (.ok (rows[n].get c), (archive, disk))

theorem Reads.eq {rows' : List Row} (h : archive.Reads disk rows) (h' : archive.Reads disk rows') :
    rows = rows' := by
  have hcount := h.count.symm.trans h'.count
  simp only [Prod.mk.injEq, Except.ok.injEq, and_true] at hcount
  refine List.ext_getElem hcount fun n hn hn' => ByColumn.ext_get fun c => ?_
  have hget := (h.get c n hn).symm.trans (h'.get c n hn')
  simpa using hget

theorem reads_of_answers
    (hcount : Archive.count.outcome (archive, disk) = (.ok rows.length, (archive, disk)))
    (hitems : ∀ c : Column, (archive.tables.get c).items = rows.length)
    (hget : ∀ (c : Column) (number : Nat), (get c number).outcome (archive, disk) =
      (itemAnswer (rows.map fun row => row.get c) (itemOf number), (archive, disk))) :
    archive.Reads disk rows := by
  refine ⟨hcount, hitems, fun c n hn => ?_⟩
  have hitem : itemOf (n + 1) = n := by simp [itemOf]
  have hrow : (rows.map fun row => row.get c)[n]? = some (rows[n].get c) := by simp [hn]
  rw [hget, hitem, itemAnswer, hrow]

theorem Stores.reads (h : archive.Stores disk root place rows) : archive.Reads disk rows := by
  have hcount := h.outcome_count
  obtain ⟨cap, entries, hopen, -⟩ := h
  refine reads_of_answers hcount (fun c => ?_) fun c number => ?_
  · have hlength := hopen.length_entries c
    rw [get_columnsOf, List.length_map] at hlength
    rw [hopen.table_eq, opened_items, (hopen.whole c).firstOf_offset]
    omega
  · rw [hopen.outcome_get, get_columnsOf]

end BlockArchive.Archive
