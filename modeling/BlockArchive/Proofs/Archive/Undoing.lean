import BlockArchive.Proofs.Archive.Serving

/-! # A failed append leaves no trace

* **`IsOpenBeside`**: the archive is open, no table is pruned, and the tables hold just these rows;
  names of segments that are not in use may be taken by directories.
* **`Accepts`**: the number is the next one, and every table has a place for its item.  If so, the
  row is added (`IsOpenBeside.exists_append`).
* **Undone.** If not, the append fails, for one of the reasons in `Hinders`.  The tables that had
  taken their items are cut back, and the archive is then the value that it was, on files that are
  the same from the tails to the heads (`IsOpenBeside.exists_undone`).
* **Once more.** Directories may come and go (`SameButDirectories`), and the archive stays open
  (`IsOpenBeside.sameButDirectories`).  Where none is in the way any more, the same append succeeds.

`append_or_undo` puts this together. -/

namespace BlockArchive.Archive

open IndexEntry Table

variable {names : String → Prop} {archive archive' : Archive} {disk disk' : Disk} {root : Path}
  {place : Location} {cap : Nat} {entries : ByColumn (List IndexEntry)} {rows : List Row}
  {row : Row} {number : Nat} {c : Column} {changes : List Change}

/-! ### Free names -/

/-- The names of an archive's files under which there is no directory. -/
def IsFree (files : FileSystem) (place : Location) (file : String) : Prop :=
  IsFile file ∧ files.node? (place ++ [file]) ≠ some .directory

theorem isFree_after (hhouses : disk'.files.Houses (IsFree disk.files place) root place)
    (hchanges : ∀ change ∈ changes, IsFree disk.files place change.name)
    (hdisk' : disk' = disk.after place changes) :
    IsFree disk'.files place = IsFree disk.files place := by
  funext file
  by_cases hfree : IsFree disk.files place file
  · refine propext ⟨fun _ => hfree, fun _ => ⟨hfree.1, ?_⟩⟩
    rcases hhouses.takes file hfree with hnode | ⟨id, hnode⟩ <;> simp [hnode]
  · have hnode : disk'.files.node? (place ++ [file]) = disk.files.node? (place ++ [file]) := by
      rw [hdisk']
      exact Disk.node?_after_ne fun change hmem heq => hfree (heq ▸ hchanges change hmem)
    simp only [IsFree, hnode]

/-- The archive is open and unpruned, and its tables hold just these rows.  Names of segments that
are not in use may be taken by directories. -/
structure IsOpenBeside (archive : Archive) (disk : Disk) (root : Path) (place : Location)
    (cap : Nat) (entries : ByColumn (List IndexEntry)) (rows : List Row) : Prop where
  isOpenOn : archive.IsOpenOn (IsFree disk.files place) disk root place cap entries
  unpruned : ∀ c : Column, (firstOf (entries.get c)).offset = 0
  items : ∀ c : Column,
    storedItems (disk.files.folder place) c.name (entries.get c) = rows.map fun row => row.get c
  blocks : archive.blocks = rows.length
  /-- No path to a file of the archive is too long. -/
  fits : ∀ file, IsFile file →
    root.text.utf8ByteSize + file.utf8ByteSize < FileSystem.maxPathBytes

namespace IsOpenBeside

theorem whole (h : archive.IsOpenBeside disk root place cap entries rows) (c : Column) :
    Whole (disk.files.folder place) c.name (entries.get c) :=
  (h.isOpenOn.intact c).whole (h.unpruned c)

theorem length_entries (h : archive.IsOpenBeside disk root place cap entries rows) (c : Column) :
    (entries.get c).length = rows.length + 1 := by
  rw [length_of_storedItems (h.whole c).ne_nil (h.items c), List.length_map]

theorem of_touches {columns : List Column} {entries' : ByColumn (List IndexEntry)}
    {rows' : List Row} {blocks : Nat}
    (h : archive.IsOpenBeside disk root place cap entries rows)
    (hopen : archive'.IsOpenOn (IsFree disk.files place) disk' root place cap entries')
    (htouches : Touches (IsFree disk.files place) columns place archive disk archive' disk')
    (hunpruned : ∀ c : Column, (firstOf (entries'.get c)).offset = 0)
    (hitems : ∀ c : Column, storedItems (disk'.files.folder place) c.name (entries'.get c) =
      rows'.map fun row => row.get c)
    (hblocks : blocks = rows'.length) :
    IsOpenBeside { archive' with blocks } disk' root place cap entries' rows' where
  isOpenOn := by
    obtain ⟨changes, hchanges, hdisk'⟩ := htouches.changed
    rw [isFree_after hopen.houses hchanges hdisk']
    exact hopen.with_blocks blocks
  unpruned := hunpruned
  items := hitems
  blocks := hblocks
  fits := h.fits

/-! ### What is answered -/

theorem outcome_count (h : archive.IsOpenBeside disk root place cap entries rows) :
    count.outcome (archive, disk) = (.ok rows.length, (archive, disk)) := by
  unfold count
  rw [Attempt.outcome_bind_ok (outcome_ensureOpen h.isOpenOn.closed disk),
    Attempt.outcome_bind_ok (Attempt.outcome_current _ _), h.blocks]
  rfl

theorem outcome_get (h : archive.IsOpenBeside disk root place cap entries rows) (c : Column)
    (number : Nat) :
    (get c number).outcome (archive, disk) =
      (itemAnswer (rows.map fun row => row.get c) (itemOf number), (archive, disk)) := by
  rw [h.isOpenOn.outcome_get (h.unpruned c), h.items]

theorem reads (h : archive.IsOpenBeside disk root place cap entries rows) :
    archive.Reads disk rows :=
  reads_of_answers h.outcome_count
    (fun c => by
      rw [h.isOpenOn.table_eq, opened_items, (h.whole c).firstOf_offset, h.length_entries]
      omega)
    h.outcome_get

end IsOpenBeside

/-! ### Added or refused -/

/-- The number is the next one, and every table has a place for its item. -/
structure Accepts (archive : Archive) (disk : Disk) (place : Location) (number : Nat) (row : Row) :
    Prop where
  number : number = archive.blocks
  place : ∀ c : Column, archive.HasPlace (IsFree disk.files place) c (row.get c).length

/-- Why an append fails. -/
inductive Hinders (archive : Archive) (disk : Disk) (place : Location) (number : Nat) (row : Row) :
    Error → Prop where
  /-- The number is not the next one. -/
  | sequence (h : number ≠ archive.blocks) :
      Hinders archive disk place number row (.sequence archive.blocks number)
  /-- The table of a column would have to begin a segment, and has used up the ids. -/
  | exhausted (c : Column) (hover : (archive.tables.get c).overflows (row.get c).length = true)
      (hlast : lastSegmentId ≤ (archive.tables.get c).headId) :
      Hinders archive disk place number row (.segmentsExhausted c.name)
  /-- An item is too long for the offsets of an index. -/
  | tooLarge (c : Column) (h : offsetLimit ≤ (row.get c).length) :
      Hinders archive disk place number row (.itemTooLarge (row.get c).length)
  /-- The table of a column would have to begin a segment, and a directory has its name. -/
  | directory (c : Column) (hover : (archive.tables.get c).overflows (row.get c).length = true)
      (h : disk.files.node?
          (place ++ [segmentFileName c.name ((archive.tables.get c).headId + 1)]) =
        some .directory) :
      Hinders archive disk place number row (.io .isADirectory)

namespace IsOpenBeside

/-- A row for which there is a place everywhere is added. -/
theorem exists_append (h : archive.IsOpenBeside disk root place cap entries rows)
    (haccepts : archive.Accepts disk place number row) :
    ∃ archive' disk' entries',
      (append number row).outcome (archive, disk) = (.ok (), (archive', disk')) ∧
      archive'.IsOpenBeside disk' root place cap entries' (rows ++ [row]) := by
  obtain ⟨archive₁, disk₁, hrun₁, -, hopen₁, htouches₁, -, hitems₁⟩ :=
    h.isOpenOn.exists_appendColumns row (show Column.all.Nodup by decide)
      (fun c _ => h.length_entries c) (fun c _ => h.unpruned c) fun c _ => haccepts.place c
  have hcolumns := hrun₁ []
  rw [List.append_nil] at hcolumns
  have hget : ∀ c : Column, (addedIn archive.tables Column.all row entries).get c =
      entries.get c ++ [(archive.tables.get c).entryFor (row.get c).length] := fun c => by
    rw [get_addedIn, if_pos (Column.mem_all c)]
  have hnumber : number = rows.length := haccepts.number.trans h.blocks
  rw [← hnumber] at hcolumns
  refine ⟨{ archive₁ with blocks := archive₁.blocks + 1 }, disk₁, _,
    outcome_append_of_ok h.isOpenOn.closed haccepts.number.symm hcolumns,
    h.of_touches hopen₁ htouches₁ (fun c => ?_) (fun c => ?_) ?_⟩
  · rw [hget, firstOf_append (h.whole c).ne_nil]
    exact h.unpruned c
  · rw [hget, hitems₁ c (Column.mem_all c), h.items, List.map_append]
    rfl
  · rw [htouches₁.blocks, h.blocks]
    simp

theorem exists_hinders {archive₁ : Archive} {disk₁ : Disk}
    {entries₁ : ByColumn (List IndexEntry)} {done : List Column}
    (h : archive.IsOpenBeside disk root place cap entries rows)
    (hopen₁ : archive₁.IsOpenOn (IsFree disk.files place) disk₁ root place cap entries₁)
    (htouches : Touches (IsFree disk.files place) done place archive disk archive₁ disk₁)
    (hc : c ∉ done) (hentries : entries₁.get c = entries.get c)
    (hplace : ¬archive.HasPlace (IsFree disk.files place) c (row.get c).length) :
    ∃ e, Hinders archive disk place number row e ∧
      (Archive.onTable c (Table.append rows.length (row.get c))).outcome (archive₁, disk₁) =
        (.error e, (archive₁, disk₁)) := by
  have htable := h.isOpenOn.table_eq c
  have hsame : archive₁.tables.get c = archive.tables.get c := (htouches.others c hc).1
  have htable₁ := hopen₁.table_eq c
  rw [hsame, hentries] at htable₁
  have hwhole₁ : Whole (disk₁.files.folder place) c.name (entries.get c) :=
    (h.whole c).congr (htouches.others c hc).2.files
  have hitems : rows.length = (archive.tables.get c).items := by
    rw [htable, opened_items, (h.whole c).firstOf_offset, h.length_entries, Nat.add_sub_cancel,
      Nat.zero_add]
  have hname : (archive.tables.get c).name = c.name := by rw [htable, opened_name]
  have hrun : ∀ e, (Table.append rows.length (row.get c)).outcome
      (archive.tables.get c, disk₁) = (.error e, (archive.tables.get c, disk₁)) →
        (Archive.onTable c (Table.append rows.length (row.get c))).outcome (archive₁, disk₁) =
          (.error e, (archive₁, disk₁)) := by
    intro e hrun
    rw [Archive.onTable, Attempt.outcome_onFirst, hsame, hrun, ← hsame]
    simp only [set_tables_get]
  by_cases hroom : (archive.tables.get c).HasRoom (row.get c).length
  · -- then a directory has the name of the segment
    have hfile : IsFile (segmentFileName c.name ((archive.tables.get c).slot
        (row.get c).length).1) :=
      isFile_of_isFileOf (isFileOf_segment _ (hroom.slot_le (h.isOpenOn.headId_le c)))
    have hnotFree : ¬IsFree disk.files place (segmentFileName c.name
        ((archive.tables.get c).slot (row.get c).length).1) := fun hfree => hplace ⟨hroom, hfree⟩
    have hnode : disk.files.node? (place ++ [segmentFileName c.name
        ((archive.tables.get c).slot (row.get c).length).1]) = some .directory := by
      by_contra hnode
      exact hnotFree ⟨hfile, hnode⟩
    have hover := overflows_of_directory htable (h.whole c).indexed hnode
    obtain ⟨changes, hchanges, hdisk₁⟩ := htouches.changed
    have hnode₁ : disk₁.files.node? (place ++ [segmentFileName c.name
        ((archive.tables.get c).slot (row.get c).length).1]) = some .directory := by
      rw [hdisk₁, Disk.node?_after_ne, hnode]
      intro change hmem heq
      rw [heq] at hnotFree
      exact hnotFree (hchanges change hmem)
    refine ⟨_, .directory c hover ?_, hrun _ ?_⟩
    · rw [slot, if_pos hover] at hnode
      exact hnode
    · rw [hitems]
      exact outcome_append_obstructed htable₁ hopen₁.houses hwhole₁.indexed hroom
        (isEntryName_of_isFile hfile) (h.fits _ hfile) hnode₁
  · refine ⟨(archive.tables.get c).refusal (row.get c).length, ?_, hrun _ ?_⟩
    · unfold refusal
      split
      · next hlarge => exact .tooLarge c hlarge
      · next hsmall =>
          simp only [HasRoom, not_and, Classical.not_imp, Nat.not_lt] at hroom
          obtain ⟨hover, hlast⟩ := hroom (Nat.lt_of_not_le hsmall)
          exact hname ▸ .exhausted c hover hlast
    · rw [hitems]
      exact outcome_append_error (by rw [htable, opened_index]) hroom

theorem eq_of_stays {names' : String → Prop}
    (h : archive.IsOpenBeside disk root place cap entries rows)
    (hopen' : archive'.IsOpenOn names' disk' root place cap entries)
    (hlocked : disk'.locked = disk.locked)
    (hstays : ∀ c : Column, Stays place c.name (entries.get c) disk disk') :
    { archive' with blocks := rows.length } = archive := by
  have hnumber : disk'.files.number place DirectoryLock.fileName =
      disk.files.number place DirectoryLock.fileName := by
    have hsame := hopen'.locked.symm.trans (hlocked.trans h.isOpenOn.locked)
    simpa using hsame
  have htables : archive'.tables = archive.tables := by
    rw [hopen'.tables, h.isOpenOn.tables]
    refine ByColumn.ext_get fun c => ?_
    rw [tablesOn, tablesOn, ByColumn.get_ofFn, ByColumn.get_ofFn]
    exact (hstays c).opened_eq (h.isOpenOn.intact c) (hopen'.intact c) (h.unpruned c) root cap
  have hlock : archive'.lock = archive.lock := by
    rw [hopen'.lock, h.isOpenOn.lock, lockOn, lockOn, hnumber]
  have hpath : archive'.path = archive.path := by rw [hopen'.path, h.isOpenOn.path]
  have hclosed : archive'.closed = archive.closed := by rw [hopen'.closed, h.isOpenOn.closed]
  rw [← h.blocks]
  cases archive
  cases archive'
  simp only at hpath htables hlock hclosed
  subst hpath htables hlock hclosed
  rfl

/-- A row that has no place in some table is refused, and what was added is cut away again. -/
theorem exists_undone (h : archive.IsOpenBeside disk root place cap entries rows)
    (hplace : ¬∀ c : Column, archive.HasPlace (IsFree disk.files place) c (row.get c).length) :
    ∃ e disk', (append rows.length row).outcome (archive, disk) = (.error e, (archive, disk')) ∧
      Hinders archive disk place rows.length row e ∧
      archive.IsOpenBeside disk' root place cap entries rows ∧
      ∀ c : Column, Stays place c.name (entries.get c) disk disk' := by
  obtain ⟨done, c, rest, hall, hnodup, hc, hplace', hfull⟩ := exists_first_not hplace
  obtain ⟨archive₁, disk₁, hrun₁, -, hopen₁, htouches₁, hstays₁, -⟩ :=
    h.isOpenOn.exists_appendColumns row hnodup (fun c _ => h.length_entries c)
      (fun c _ => h.unpruned c) hplace'
  generalize hadded : addedIn archive.tables done row entries = added at hopen₁
  have hget : ∀ d : Column, (added.get d).length = rows.length + (if d ∈ done then 2 else 1) ∧
      (firstOf (added.get d)).offset = 0 ∧
        (added.get d).take (rows.length + 1) = entries.get d := by
    intro d
    rw [← hadded, get_addedIn]
    have hlength := h.length_entries d
    split
    · refine ⟨by simp [hlength], ?_, ?_⟩
      · rw [firstOf_append (h.whole d).ne_nil, h.unpruned d]
      · rw [← hlength, List.take_left]
    · exact ⟨hlength, h.unpruned d, by rw [← hlength, List.take_length]⟩
  have hkeep : keepIn Column.all rows.length added = entries := ByColumn.ext_get fun d => by
    obtain ⟨-, hfirst, htake⟩ := hget d
    rw [get_keepIn, if_pos (Column.mem_all d), keepTo_of_unpruned hfirst, htake]
  have hitems : ∀ d : Column, (archive₁.tables.get d).items =
      rows.length + (if d ∈ done then 1 else 0) := by
    intro d
    obtain ⟨hlength, hfirst, -⟩ := hget d
    rw [hopen₁.table_eq, opened_items, hfirst, hlength]
    split <;> simp
  obtain ⟨e, hhinders, hrefused⟩ := h.exists_hinders hopen₁ htouches₁ hc
    (by rw [← hadded, get_addedIn, if_neg hc]) hfull
  -- every table is cut back to what it held
  have hunpruned : ∀ d ∈ Column.all, rows.length < (archive₁.tables.get d).items →
      (archive₁.tables.get d).itemOffset ≤ rows.length := fun d _ _ => by
    rw [hopen₁.table_eq, opened_itemOffset, (hget d).2.1]
    exact Nat.zero_le _
  obtain ⟨archive₂, disk₂, hrun₂, hopen₂, htouches₂, hstays₂⟩ :=
    hopen₁.exists_cutColumns (show Column.all.Nodup by decide) hunpruned
  have hcut := hrun₂ []
  rw [List.append_nil] at hcut
  rw [hkeep] at hopen₂ hstays₂
  have hshortest : shortest archive₁.tables = rows.length :=
    shortest_eq (fun d => by rw [hitems]; exact Nat.le_add_right _ _)
      ⟨c, by rw [hitems, if_neg hc, Nat.add_zero]⟩
  have heven := outcome_evenOut hshortest hcut
  have hcolumns : (appendColumns rows.length row).outcome (archive, disk) =
      (.error e, (archive₁, disk₁)) := by
    rw [appendColumns, hall, hrun₁, List.forM, Attempt.outcome_bind_error hrefused]
  have htouches := htouches₁.trans htouches₂
  have hstays : ∀ d : Column, Stays place d.name (entries.get d) disk disk₂ := fun d =>
    (hstays₁ d).trans (hstays₂ d)
  have hlocked : disk₂.locked = disk.locked := by
    obtain ⟨changes, -, hdisk₂⟩ := htouches.changed
    rw [hdisk₂, Disk.locked_after]
  have heq := h.eq_of_stays hopen₂ hlocked hstays
  have hbeside := h.of_touches hopen₂ htouches h.unpruned
    (fun d => by rw [(hstays d).storedItems_eq (h.isOpenOn.intact d), h.items]) rfl
  rw [heq] at heven hbeside
  exact ⟨e, disk₂, outcome_append_of_error h.isOpenOn.closed h.blocks hcolumns heven, hhinders,
    hbeside, hstays⟩

theorem exists_undo (h : archive.IsOpenBeside disk root place cap entries rows)
    (hrefused : ¬archive.Accepts disk place number row) :
    ∃ e disk', (append number row).outcome (archive, disk) = (.error e, (archive, disk')) ∧
      Hinders archive disk place number row e ∧
      archive.IsOpenBeside disk' root place cap entries rows ∧
      ∀ c : Column, Stays place c.name (entries.get c) disk disk' := by
  by_cases hnumber : number = archive.blocks
  · have hplace : ¬∀ c : Column,
        archive.HasPlace (IsFree disk.files place) c (row.get c).length := fun hplace =>
      hrefused ⟨hnumber, hplace⟩
    rw [hnumber, h.blocks]
    exact h.exists_undone hplace
  · refine ⟨_, disk, ?_, .sequence hnumber, h, fun c => (Untouched.refl _ _ _).stays _⟩
    exact outcome_append_of_ne h.isOpenOn.closed hnumber

end IsOpenBeside

/-! ### Once the cause is gone -/

/-- What `place` has under a name is the same on both disks, or no file on either. -/
def SameFile (place : Location) (disk disk' : Disk) (file : String) : Prop :=
  disk'.files.node? (place ++ [file]) = disk.files.node? (place ++ [file]) ∨
    (disk.files.node? (place ++ [file]) = none ∨
        disk.files.node? (place ++ [file]) = some .directory) ∧
      (disk'.files.node? (place ++ [file]) = none ∨
        disk'.files.node? (place ++ [file]) = some .directory)

/-- `root` still leads to the directory, and the files there are the same; directories may have come
and gone. -/
structure SameButDirectories (root : Path) (place : Location) (disk disk' : Disk) : Prop where
  locked : disk'.locked = disk.locked
  contents : disk'.files.contents = disk.files.contents
  named : disk'.files.resolve .name root = .ok place
  directory : disk'.files.node? place = some .directory
  home : disk'.files.node? disk'.files.home = some .directory
  file : ∀ file, SameFile place disk disk' file

namespace SameButDirectories

theorem node?_eq_file (h : SameButDirectories root place disk disk') {file : String} {id : FileId}
    (hfile : disk'.files.node? (place ++ [file]) = some (.file id)) :
    disk.files.node? (place ++ [file]) = some (.file id) := by
  rcases h.file file with hnode | ⟨-, hnode | hnode⟩
  · rw [← hnode, hfile]
  · simp [hnode] at hfile
  · simp [hnode] at hfile

theorem number_eq (h : SameButDirectories root place disk disk') (file : String) :
    disk'.files.number place file = disk.files.number place file := by
  unfold FileSystem.number
  rcases h.file file with hnode | ⟨hnode | hnode, hnode' | hnode'⟩
  · rw [hnode]
  all_goals rw [hnode, hnode']

theorem folder_eq (h : SameButDirectories root place disk disk') :
    disk'.files.folder place = disk.files.folder place := by
  funext file
  unfold FileSystem.folder FileSystem.content
  rw [h.contents]
  rcases h.file file with hnode | ⟨hnode | hnode, hnode' | hnode'⟩
  · rw [hnode]
  all_goals rw [hnode, hnode']

theorem opened_eq (h : SameButDirectories root place disk disk') (root' : Path) (name : String)
    (cap : Nat) (entries : List IndexEntry) :
    opened disk'.files place root' name cap entries =
      opened disk.files place root' name cap entries :=
  opened_congr (h.number_eq _) (fun _ _ => h.number_eq _) (by rw [h.folder_eq])

theorem houses (h : SameButDirectories root place disk disk')
    (hhouses : disk.files.Houses (IsFree disk.files place) root place)
    (hfits : ∀ file, IsFile file →
      root.text.utf8ByteSize + file.utf8ByteSize < FileSystem.maxPathBytes) :
    disk'.files.Houses (IsFree disk'.files place) root place where
  named := h.named
  directory := h.directory
  home := h.home
  entry _ hname := isEntryName_of_isFile hname.1
  fits name hname := hfits name hname.1
  takes name hname := by
    unfold FileSystem.TakesFile
    rcases h.file name with hnode | ⟨-, hnode | hnode⟩
    · rw [hnode]
      exact hhouses.takes name ⟨hname.1, hnode ▸ hname.2⟩
    · exact .inl hnode
    · exact absurd hnode hname.2
  numbered name id hfile := by
    rw [h.contents]
    exact hhouses.numbered name id (h.node?_eq_file hfile)
  apart a b id ha hb := hhouses.apart a b id (h.node?_eq_file ha) (h.node?_eq_file hb)

end SameButDirectories

/-- The archive stays open when directories come or go. -/
theorem IsOpenBeside.sameButDirectories
    (h : archive.IsOpenBeside disk root place cap entries rows)
    (hsame : SameButDirectories root place disk disk') :
    archive.IsOpenBeside disk' root place cap entries rows := by
  have hopen := h.isOpenOn
  refine ⟨⟨hopen.path, hopen.closed, ?_, ?_, ?_, ?_, hsame.houses hopen.houses h.fits,
    fun c => ?_, fun c file hfile => ⟨(hopen.named c file hfile).1, ?_⟩⟩, h.unpruned, fun c => ?_,
    h.blocks, h.fits⟩
  · rw [lockOn, hsame.number_eq]
    exact hopen.lock
  · rw [hsame.number_eq, hsame.locked, hopen.locked]
  · rw [hsame.folder_eq]
    exact hopen.lockThere
  · rw [hopen.tables]
    refine ByColumn.ext_get fun c => ?_
    rw [tablesOn, tablesOn, ByColumn.get_ofFn, ByColumn.get_ofFn, hsame.opened_eq]
  · rw [hsame.folder_eq]
    exact hopen.intact c
  · -- the files of a table are there, and so they are the same
    obtain ⟨content, hcontent⟩ := Option.ne_none_iff_exists'.1 ((h.whole c).file_there hfile)
    have hnode := FileSystem.node?_of_folder hcontent
    rcases hsame.file file with hnode' | ⟨hnode' | hnode', -⟩
    · simp [hnode', hnode]
    · simp [hnode'] at hnode
    · simp [hnode'] at hnode
  · rw [hsame.folder_eq, h.items]

/-! ### The whole result -/

/-- An append that is accepted adds its row, which can then be read.  Any other fails and leaves the
archive as it was: the same counters and the same open files, the same bytes in the index and the
segments of every table, and the same answers.  Once nothing is in the way any more, the same append
succeeds. -/
theorem append_or_undo (h : archive.IsOpenBeside disk root place cap entries rows) (number : Nat)
    (row : Row) :
    (archive.Accepts disk place number row →
      ∃ archive' disk', (append number row).outcome (archive, disk) =
          (.ok (), (archive', disk')) ∧
        archive'.Reads disk' (rows ++ [row])) ∧
    (¬archive.Accepts disk place number row →
      ∃ e disk', (append number row).outcome (archive, disk) = (.error e, (archive, disk')) ∧
        Hinders archive disk place number row e ∧
        archive.Reads disk' rows ∧
        (∀ c number, ∃ answer, (get c number).outcome (archive, disk) = (answer, (archive, disk)) ∧
          (get c number).outcome (archive, disk') = (answer, (archive, disk'))) ∧
        (∃ answer, stats.outcome (archive, disk) = (.ok answer, (archive, disk)) ∧
          stats.outcome (archive, disk') = (.ok answer, (archive, disk'))) ∧
        (∀ (c : Column) (file : String),
          IsFileWithin c.name (archive.tables.get c).tailId (archive.tables.get c).headId file →
            disk'.files.folder place file = disk.files.folder place file) ∧
        ∀ cleared, SameButDirectories root place disk' cleared →
          archive.Accepts cleared place number row →
            ∃ archive'' disk'', (append number row).outcome (archive, cleared) =
                (.ok (), (archive'', disk'')) ∧
              archive''.Reads disk'' (rows ++ [row])) := by
  have hadd : ∀ {disk : Disk}, archive.IsOpenBeside disk root place cap entries rows →
      archive.Accepts disk place number row →
        ∃ archive' disk', (append number row).outcome (archive, disk) =
            (.ok (), (archive', disk')) ∧
          archive'.Reads disk' (rows ++ [row]) := by
    intro disk h haccepts
    obtain ⟨archive', disk', entries', hrun, hbeside⟩ := h.exists_append haccepts
    exact ⟨archive', disk', hrun, hbeside.reads⟩
  refine ⟨hadd h, fun hrefused => ?_⟩
  obtain ⟨e, disk', hrun, hhinders, hbeside, hstays⟩ := h.exists_undo hrefused
  have hfiles : ∀ (c : Column) (file : String), IsFileWithin c.name
      (firstOf (entries.get c)).segment.toNat (lastOf (entries.get c)).segment.toNat file →
        disk'.files.folder place file = disk.files.folder place file := fun c file hfile =>
    (hstays c).folder_eq (h.isOpenOn.intact c) (hbeside.isOpenOn.intact c) (h.unpruned c) hfile
  refine ⟨e, disk', hrun, hhinders, hbeside.reads, fun c number => ?_, ?_, fun c file hfile => ?_,
    fun cleared hsame => hadd (hbeside.sameButDirectories hsame)⟩
  · exact ⟨_, h.outcome_get c number, hbeside.outcome_get c number⟩
  · have hstats := hbeside.isOpenOn.outcome_stats
    have hsame : archive.statsIn (disk'.files.folder place) entries =
        archive.statsIn (disk.files.folder place) entries := by
      funext c
      rw [statsIn, statsIn, bytesIn_congr (h.whole c).tail_le_head fun id hlow hhigh =>
        hfiles c _ (isFileWithin_segment _ hlow hhigh)]
    rw [hsame] at hstats
    exact ⟨_, h.isOpenOn.outcome_stats, hstats⟩
  · rw [h.isOpenOn.table_eq, opened_tailId, opened_headId] at hfile
    exact hfiles c file hfile

/-! ### A directory in the way -/

theorem IsOpen.isOpenBeside (h : archive.IsOpen disk root place cap entries (columnsOf rows))
    (hblocks : archive.blocks = rows.length) :
    archive.IsOpenBeside disk root place cap entries rows := by
  have hfree : IsFree disk.files place = IsFile := by
    funext file
    refine propext ⟨And.left, fun hfile => ⟨hfile, ?_⟩⟩
    rcases h.houses.takes file hfile with hnode | ⟨id, hnode⟩ <;> simp [hnode]
  refine ⟨hfree ▸ h.isOpenOn, fun c => (h.whole c).unpruned, fun c => ?_, hblocks, h.houses.fits⟩
  rw [h.items, get_columnsOf]

/-- A directory that is made under a name that nothing has changes no file. -/
theorem sameButDirectories_makeDirectory (hhouses : disk.files.Houses names root place)
    {file : String} (hnone : disk.files.node? (place ++ [file]) = none) :
    SameButDirectories root place disk { disk with
      files := (Effect.makeDirectory (place ++ [file])).apply disk.files } := by
  have hways := FileSystem.sameWays_makeDirectory hnone
  refine ⟨rfl, rfl, FileSystem.resolve_of_sameWays (.inl rfl) hways hhouses.named
    hhouses.directory, hways.directory _ hhouses.directory, hways.directory _ hhouses.home,
    fun other => ?_⟩
  unfold SameFile
  rw [FileSystem.node?_makeDirectory]
  split
  · next heq =>
      rw [heq]
      exact .inr ⟨.inl hnone, .inr rfl⟩
  · exact .inl rfl

/-- The files of an archive with no rows. -/
def noRows : List (String × Bytes) :=
  (DirectoryLock.fileName, []) :: Column.all.flatMap fun c =>
    [(indexFileName c.name, encodeAll [.sentinel]), (segmentFileName c.name 0, [])]

/-- These files, and a directory under the name of the next segment of the receipts. -/
def noRowsBeside : FileSystem :=
  (Effect.makeDirectory (["a"] ++ [segmentFileName Column.receipts.name 1])).apply
    (FileSystem.ofListing noRows)

/-- The archive that is open on these files, in which every item gets a segment of its own. -/
def openNoRows : Archive :=
  openOn (FileSystem.ofListing noRows) ["a"] ⟨["", "a"]⟩ 0 (.ofFn fun _ => [.sentinel]) 0

theorem isOpen_openNoRows :
    openNoRows.IsOpen (diskOn (FileSystem.ofListing noRows) ["a"]) ⟨["", "a"]⟩ ["a"] 0
      (.ofFn fun _ => [.sentinel]) (columnsOf []) := by
  have hfolder := FileSystem.folder_ofListing noRows
  have hwhole : ∀ c : Column, Whole ((FileSystem.ofListing noRows).folder ["a"]) c.name
      ((ByColumn.ofFn fun _ => [.sentinel]).get c) := by
    intro c
    rw [ByColumn.get_ofFn, hfolder]
    refine whole_sentinel ?_ ?_ <;> cases c <;> decide +kernel
  have hlock : (FileSystem.ofListing noRows).folder ["a"] DirectoryLock.fileName ≠ none := by
    rw [hfolder]
    decide +kernel
  refine (isOpenOn_openOn (houses_ofListing noRows) hlock (fun c => (hwhole c).intact) 0 0).isOpen
    (fun c => (hwhole c).unpruned) fun c => ?_
  rw [ByColumn.get_ofFn, get_columnsOf]
  rfl

/-- The receipts have no place for their item, so the row is refused, after the items of three
columns were added in new segments. -/
theorem append_or_undo_noRows :
    ∃ e disk', (append 0 (.ofFn fun _ => [1])).outcome
        (openNoRows, { diskOn (FileSystem.ofListing noRows) ["a"] with files := noRowsBeside }) =
      (.error e, (openNoRows, disk')) := by
  have hopen := isOpen_openNoRows
  have hnone : (FileSystem.ofListing noRows).node?
      (["a"] ++ [segmentFileName Column.receipts.name 1]) = none := by
    decide +kernel
  have hsame := sameButDirectories_makeDirectory hopen.houses hnone
  have hbeside := (hopen.isOpenBeside rfl).sameButDirectories hsame
  obtain ⟨e, disk', hrun, -⟩ := (append_or_undo hbeside 0 (.ofFn fun _ => [1])).2 fun haccepts =>
    (haccepts.place .receipts).named.2 (by decide +kernel)
  exact ⟨e, disk', hrun⟩

end BlockArchive.Archive
