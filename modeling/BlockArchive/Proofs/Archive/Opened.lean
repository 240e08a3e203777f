import BlockArchive.Proofs.Archive.Files
import BlockArchive.Proofs.Table.Reading
import BlockArchive.Proofs.Table.Staying

/-! # An open archive and its files

* **`IsOpenOn`**: the archive is open on the files of its directory that have these names, and the
  table of each column is the one that the files make (`tablesOn`) and intact.
* **`IsOpen`**: besides, it can have all files of an archive, and the tables are at rest, with these
  items.
* **One column.** What an operation does to the table of one column, it does to the archive, and the
  other tables are left alone (`IsOpenOn.onTable`).  `Touches` says which tables operations were
  on.
* **All columns.** `IsOpenOn.exists_cutColumns` and `IsOpen.exists_cutColumns` go through the
  columns and cut each. -/

namespace BlockArchive.Archive

open IndexEntry Table

/-- The tables that are open when their indexes have these entries. -/
def tablesOn (files : FileSystem) (place : Location) (root : Path) (cap : Nat)
    (entries : ByColumn (List IndexEntry)) : ByColumn Table :=
  .ofFn fun c => opened files place root c.name cap (entries.get c)

/-- The lock that an archive holds. -/
def lockOn (files : FileSystem) (place : Location) (root : Path) : DirectoryLock where
  path := root.join DirectoryLock.fileName
  file := .file (files.number place DirectoryLock.fileName) true

/-- The archive is open on the files at `place` that have these names; the ones that its tables use
are among them, and the tables are intact. -/
structure IsOpenOn (names : String → Prop) (archive : Archive) (disk : Disk) (root : Path)
    (place : Location) (cap : Nat) (entries : ByColumn (List IndexEntry)) : Prop where
  path : archive.path = root
  closed : archive.closed = false
  lock : archive.lock = some (lockOn disk.files place root)
  locked : disk.locked = [disk.files.number place DirectoryLock.fileName]
  lockThere : disk.files.folder place DirectoryLock.fileName ≠ none
  tables : archive.tables = tablesOn disk.files place root cap entries
  houses : disk.files.Houses names root place
  intact : ∀ c : Column, Intact (disk.files.folder place) c.name (entries.get c)
  named : ∀ (c : Column) (file : String),
    IsFileWithin c.name (firstOf (entries.get c)).segment.toNat
      (lastOf (entries.get c)).segment.toNat file → names file

/-- The archive is open on the files at `place`, and its tables are at rest. -/
structure IsOpen (archive : Archive) (disk : Disk) (root : Path) (place : Location) (cap : Nat)
    (entries : ByColumn (List IndexEntry)) (items : ByColumn (List Bytes)) : Prop where
  path : archive.path = root
  closed : archive.closed = false
  lock : archive.lock = some (lockOn disk.files place root)
  locked : disk.locked = [disk.files.number place DirectoryLock.fileName]
  lockThere : disk.files.folder place DirectoryLock.fileName ≠ none
  tables : archive.tables = tablesOn disk.files place root cap entries
  houses : disk.files.Houses IsFile root place
  whole : ∀ c : Column, Whole (disk.files.folder place) c.name (entries.get c)
  items : ∀ c : Column,
    storedItems (disk.files.folder place) c.name (entries.get c) = items.get c

variable {names : String → Prop} {archive archive' archive'' : Archive}
  {disk disk' disk'' : Disk} {root : Path} {place : Location} {cap : Nat}
  {entries : ByColumn (List IndexEntry)} {items : ByColumn (List Bytes)} {c : Column}
  {changes : List Change}

theorem IsOpenOn.table_eq (h : archive.IsOpenOn names disk root place cap entries) (c : Column) :
    archive.tables.get c = opened disk.files place root c.name cap (entries.get c) := by
  rw [h.tables, tablesOn, ByColumn.get_ofFn]

theorem IsOpen.table_eq (h : archive.IsOpen disk root place cap entries items) (c : Column) :
    archive.tables.get c = opened disk.files place root c.name cap (entries.get c) := by
  rw [h.tables, tablesOn, ByColumn.get_ofFn]

theorem hnames_column (c : Column) : ∀ file, IsFileOf c.name file → IsFile file :=
  fun _ h => isFile_of_isFileOf h

theorem IsOpen.isOpenOn (h : archive.IsOpen disk root place cap entries items) :
    archive.IsOpenOn IsFile disk root place cap entries where
  path := h.path
  closed := h.closed
  lock := h.lock
  locked := h.locked
  lockThere := h.lockThere
  tables := h.tables
  houses := h.houses
  intact c := (h.whole c).intact
  named c _ hfile := isFile_of_isFileOf (hfile.isFileOf (h.whole c).head_le)

theorem IsOpenOn.isOpen (h : archive.IsOpenOn IsFile disk root place cap entries)
    (hfirst : ∀ c : Column, (firstOf (entries.get c)).offset = 0)
    (hitems : ∀ c : Column,
      storedItems (disk.files.folder place) c.name (entries.get c) = items.get c) :
    archive.IsOpen disk root place cap entries items where
  path := h.path
  closed := h.closed
  lock := h.lock
  locked := h.locked
  lockThere := h.lockThere
  tables := h.tables
  houses := h.houses
  whole c := (h.intact c).whole (hfirst c)
  items := hitems

/-- The archive that is open on these files. -/
def openOn (files : FileSystem) (place : Location) (root : Path) (cap : Nat)
    (entries : ByColumn (List IndexEntry)) (blocks : Nat) : Archive where
  path := root
  blocks := blocks
  tables := tablesOn files place root cap entries
  lock := some (lockOn files place root)
  closed := false

/-- The disk with these files, while the archive is open. -/
def diskOn (files : FileSystem) (place : Location) : Disk where
  files := files
  locked := [files.number place DirectoryLock.fileName]
  journal := []

theorem isOpenOn_openOn {files : FileSystem} (hhouses : files.Houses IsFile root place)
    (hlock : files.folder place DirectoryLock.fileName ≠ none)
    (h : ∀ c : Column, Intact (files.folder place) c.name (entries.get c)) (cap blocks : Nat) :
    (openOn files place root cap entries blocks).IsOpenOn IsFile (diskOn files place) root place cap
      entries where
  path := rfl
  closed := rfl
  lock := rfl
  locked := rfl
  lockThere := hlock
  tables := rfl
  houses := hhouses
  intact := h
  named c _ hfile := isFile_of_isFileOf (hfile.isFileOf (h c).head_le)

theorem IsOpen.length_entries (h : archive.IsOpen disk root place cap entries items) (c : Column) :
    (entries.get c).length = (items.get c).length + 1 :=
  length_of_storedItems (h.whole c).ne_nil (h.items c)

/-! ### Tables that are not touched -/

/-- Changes to the files of other tables leave the files of a table as they are. -/
theorem untouched_after {d : Column} (hcd : c ≠ d) (hhouses : disk.files.Houses names root place)
    (hnamed : ∀ change ∈ changes, names change.name)
    (hchanges : ∀ change ∈ changes, IsFileOf c.name change.name)
    (hfits : (disk.files.folder place).Fits changes) (hdisk' : disk' = disk.after place changes) :
    Untouched place d.name disk disk' := by
  have hfolder : disk'.files.folder place = (disk.files.folder place).after changes := by
    rw [hdisk']
    exact Disk.folder_after hhouses hnamed hfits
  refine ⟨?_, fun file hfile => ?_⟩
  · rw [hfolder]
    exact sameFiles_after fun change hmem => .inr ⟨c, hcd, hchanges change hmem⟩
  · rw [hdisk']
    refine Disk.number_after fun change hmem => ?_
    have hne : change.name ≠ file := by
      rintro rfl
      exact hcd (column_eq_of_isFileOf (hchanges change hmem) hfile)
    exact ⟨fun heq => hne (heq ▸ rfl), fun heq => hne (heq ▸ rfl)⟩

/-- Changes to the files of a table leave the lock file as it is. -/
theorem lock_after (hhouses : disk.files.Houses names root place)
    (hnamed : ∀ change ∈ changes, names change.name)
    (hchanges : ∀ change ∈ changes, IsFileOf c.name change.name)
    (hfits : (disk.files.folder place).Fits changes) (hdisk' : disk' = disk.after place changes) :
    disk'.files.folder place DirectoryLock.fileName =
        disk.files.folder place DirectoryLock.fileName ∧
      disk'.files.number place DirectoryLock.fileName =
        disk.files.number place DirectoryLock.fileName := by
  have hlock : ∀ change ∈ changes, DirectoryLock.fileName ≠ change.name := fun change hmem =>
    Ne.symm (ne_lock_of_isFileOf (hchanges change hmem))
  rw [hdisk']
  constructor
  · rw [Disk.folder_after hhouses hnamed hfits, Folder.after_ne hlock]
  · refine Disk.number_after fun change hmem => ?_
    exact ⟨fun heq => hlock change hmem (heq ▸ rfl), fun heq => hlock change hmem (heq ▸ rfl)⟩

/-- From the one archive and disk to the other, only files with these names changed, and of the
tables only those of the columns of a list. -/
structure Touches (names : String → Prop) (columns : List Column) (place : Location)
    (archive : Archive) (disk : Disk) (archive' : Archive) (disk' : Disk) : Prop where
  blocks : archive'.blocks = archive.blocks
  changed : ∃ changes, (∀ change ∈ changes, names change.name) ∧ disk' = disk.after place changes
  others : ∀ d ∉ columns, archive'.tables.get d = archive.tables.get d ∧
    Untouched place d.name disk disk'

namespace Touches

theorem refl (names : String → Prop) (columns : List Column) (place : Location) (archive : Archive)
    (disk : Disk) : Touches names columns place archive disk archive disk :=
  ⟨rfl, ⟨[], by simp, rfl⟩, fun _ _ => ⟨rfl, .refl _ _ _⟩⟩

theorem trans {columns columns' : List Column}
    (h : Touches names columns place archive disk archive' disk')
    (h' : Touches names columns' place archive' disk' archive'' disk'') :
    Touches names (columns ++ columns') place archive disk archive'' disk'' := by
  obtain ⟨changes, hchanges, rfl⟩ := h.changed
  obtain ⟨changes', hchanges', rfl⟩ := h'.changed
  refine ⟨h'.blocks.trans h.blocks, ⟨changes ++ changes', ?_, (Disk.after_append _ _ _ _).symm⟩,
    fun d hd => ?_⟩
  · intro change hmem
    exact (List.mem_append.1 hmem).elim (hchanges change) (hchanges' change)
  · rw [List.mem_append, not_or] at hd
    obtain ⟨htable, hfiles⟩ := h.others d hd.1
    obtain ⟨htable', hfiles'⟩ := h'.others d hd.2
    exact ⟨htable'.trans htable, hfiles.trans hfiles'⟩

end Touches

/-! ### One column -/

/-- What is done to the table of one column is done to the archive. -/
theorem IsOpenOn.onTable (h : archive.IsOpenOn names disk root place cap entries) (c : Column)
    {α : Type} {action : Action (Table × Disk) α} {answer : Except Error α}
    {all : List IndexEntry} (hnamed : ∀ change ∈ changes, names change.name)
    (hchanges : ∀ change ∈ changes, IsFileOf c.name change.name)
    (hfits : (disk.files.folder place).Fits changes) (hdisk' : disk' = disk.after place changes)
    (hrun : action.outcome (archive.tables.get c, disk) =
      (answer, (opened disk'.files place root c.name cap all, disk')))
    (hintact : Intact (disk'.files.folder place) c.name all)
    (hall : ∀ file, IsFileWithin c.name (firstOf all).segment.toNat (lastOf all).segment.toNat
      file → names file) :
    ∃ archive', (Archive.onTable c action).outcome (archive, disk) = (answer, (archive', disk')) ∧
      archive'.IsOpenOn names disk' root place cap (entries.set c all) ∧
      Touches names [c] place archive disk archive' disk' := by
  have hhouses' := Disk.houses_after h.houses hnamed hfits
  rw [← hdisk'] at hhouses'
  obtain ⟨hlock, hnumber⟩ := lock_after h.houses hnamed hchanges hfits hdisk'
  have hothers : ∀ d ≠ c, Untouched place d.name disk disk' := fun d hdc =>
    untouched_after (Ne.symm hdc) h.houses hnamed hchanges hfits hdisk'
  refine ⟨{ archive with
    tables := archive.tables.set c (opened disk'.files place root c.name cap all) }, ?_, ?_,
    ⟨rfl, ⟨changes, hnamed, hdisk'⟩, fun d hd => ?_⟩⟩
  · rw [Archive.onTable, Attempt.outcome_onFirst, hrun]
  · refine ⟨h.path, h.closed, ?_, ?_, ?_, ?_, hhouses', fun d => ?_, fun d => ?_⟩
    · rw [lockOn, hnumber]
      exact h.lock
    · rw [hnumber, hdisk', Disk.locked_after, h.locked]
    · rw [hlock]
      exact h.lockThere
    · refine ByColumn.ext_get fun d => ?_
      rw [tablesOn, ByColumn.get_ofFn]
      by_cases hdc : d = c
      · rw [hdc, ByColumn.get_set_same, ByColumn.get_set_same]
      · rw [ByColumn.get_set_ne _ _ hdc, ByColumn.get_set_ne _ _ hdc, (hothers d hdc).opened_eq,
          h.table_eq]
    · by_cases hdc : d = c
      · rw [hdc, ByColumn.get_set_same]
        exact hintact
      · rw [ByColumn.get_set_ne _ _ hdc]
        exact (h.intact d).congr (hothers d hdc).files
    · by_cases hdc : d = c
      · rw [hdc, ByColumn.get_set_same]
        exact hall
      · rw [ByColumn.get_set_ne _ _ hdc]
        exact h.named d
  · have hdc : d ≠ c := fun heq => hd (heq ▸ List.mem_singleton_self _)
    exact ⟨ByColumn.get_set_ne _ _ hdc, hothers d hdc⟩

/-- The number of blocks is the archive's own. -/
theorem IsOpenOn.with_blocks (h : archive.IsOpenOn names disk root place cap entries)
    (blocks : Nat) : IsOpenOn names { archive with blocks } disk root place cap entries :=
  ⟨h.path, h.closed, h.lock, h.locked, h.lockThere, h.tables, h.houses, h.intact, h.named⟩

theorem IsOpen.with_blocks (h : archive.IsOpen disk root place cap entries items) (blocks : Nat) :
    IsOpen { archive with blocks } disk root place cap entries items :=
  ⟨h.path, h.closed, h.lock, h.locked, h.lockThere, h.tables, h.houses, h.whole, h.items⟩

theorem outcome_ensureOpen (h : archive.closed = false) (disk : Disk) :
    ensureOpen.outcome (archive, disk) = (.ok (), (archive, disk)) := by
  unfold ensureOpen
  rw [Attempt.outcome_bind_ok (Attempt.outcome_current _ _), h]
  rfl

theorem outcome_ensureOpen_of_closed (h : archive.closed = true) (disk : Disk) :
    ensureOpen.outcome (archive, disk) = (.error .closed, (archive, disk)) := by
  unfold ensureOpen
  rw [Attempt.outcome_bind_ok (Attempt.outcome_current _ _), h]
  rfl

/-- A table that is put back leaves the archive as it is. -/
theorem set_tables_get (archive : Archive) (c : Column) :
    { archive with tables := archive.tables.set c (archive.tables.get c) } = archive := by
  rw [ByColumn.set_get]

/-! ### Cutting all columns -/

/-- The changes with which one table is cut, if it is too long. -/
def cuttingTo (name : String) (entries : List IndexEntry) (count : Nat) : List Change :=
  if count + 1 < entries.length then cutting name entries count else []

theorem isFileWithin_of_mem_cuttingTo {folder : Folder} {name : String} {entries : List IndexEntry}
    {count : Nat} {change : Change} (h : Intact folder name entries)
    (hmem : change ∈ cuttingTo name entries count) :
    IsFileWithin name (firstOf entries).segment.toNat (lastOf entries).segment.toNat
      change.name := by
  unfold cuttingTo at hmem
  split at hmem
  · next hlong => exact isFileWithin_of_mem_cutting h hlong hmem
  · simp at hmem

theorem fits_cuttingTo {folder : Folder} {name : String} {entries : List IndexEntry}
    (h : Intact folder name entries) (count : Nat) :
    folder.Fits (cuttingTo name entries count) := by
  unfold cuttingTo
  split
  · next hlong => exact fits_cutting h hlong
  · trivial

/-- The columns of a list, cut to the first `n` of what each holds. -/
def takeIn {α : Type} (columns : List Column) (n : Nat) (values : ByColumn (List α)) :
    ByColumn (List α) :=
  .ofFn fun c => if c ∈ columns then (values.get c).take n else values.get c

theorem get_takeIn_all {α : Type} (n : Nat) (values : ByColumn (List α)) (c : Column) :
    (takeIn Column.all n values).get c = (values.get c).take n := by
  rw [takeIn, ByColumn.get_ofFn, if_pos (Column.mem_all c)]

theorem takeIn_set {α : Type} {columns : List Column} (hmem : c ∉ columns) (n : Nat)
    (values : ByColumn (List α)) :
    takeIn columns n (values.set c ((values.get c).take n)) = takeIn (c :: columns) n values := by
  refine ByColumn.ext_get fun d => ?_
  rw [takeIn, takeIn, ByColumn.get_ofFn, ByColumn.get_ofFn]
  by_cases hdc : d = c
  · rw [hdc, ByColumn.get_set_same, if_neg hmem, if_pos (List.mem_cons_self)]
  · rw [ByColumn.get_set_ne _ _ hdc]
    simp [hdc]

/-- What is kept of the entries of a table that is cut to `count` items, pruned ones included. -/
def keepTo (count : Nat) (entries : List IndexEntry) : List IndexEntry :=
  entries.take (count - (firstOf entries).offset.toNat + 1)

theorem keepTo_of_unpruned {all : List IndexEntry} (h : (firstOf all).offset = 0) (count : Nat) :
    keepTo count all = all.take (count + 1) := by
  rw [keepTo, h]
  rfl

/-- The entries of the columns of a list, cut to `count` items. -/
def keepIn (columns : List Column) (count : Nat) (entries : ByColumn (List IndexEntry)) :
    ByColumn (List IndexEntry) :=
  .ofFn fun c => if c ∈ columns then keepTo count (entries.get c) else entries.get c

theorem get_keepIn (columns : List Column) (count : Nat) (entries : ByColumn (List IndexEntry))
    (c : Column) : (keepIn columns count entries).get c =
      if c ∈ columns then keepTo count (entries.get c) else entries.get c :=
  ByColumn.get_ofFn _ _

theorem keepIn_set {columns : List Column} (hmem : c ∉ columns) (count : Nat) :
    keepIn columns count (entries.set c (keepTo count (entries.get c))) =
      keepIn (c :: columns) count entries := by
  refine ByColumn.ext_get fun d => ?_
  rw [get_keepIn, get_keepIn]
  by_cases hdc : d = c
  · rw [hdc, ByColumn.get_set_same, if_neg hmem, if_pos List.mem_cons_self]
  · rw [ByColumn.get_set_ne _ _ hdc]
    simp [hdc]

/-- The table of one column is cut, if it is too long; its pruned items have to be left alone. -/
theorem IsOpenOn.exists_cutColumn (h : archive.IsOpenOn names disk root place cap entries)
    (c : Column) {count : Nat} (hcount : count < (archive.tables.get c).items →
      (archive.tables.get c).itemOffset ≤ count) :
    ∃ archive' disk', (Archive.onTable c (Table.truncate count)).outcome (archive, disk) =
        (.ok (), (archive', disk')) ∧
      disk' = disk.after place (cuttingTo c.name (entries.get c)
        (count - (firstOf (entries.get c)).offset.toNat)) ∧
      archive'.IsOpenOn names disk' root place cap
        (entries.set c (keepTo count (entries.get c))) ∧
      Touches names [c] place archive disk archive' disk' ∧
      Stays place c.name (keepTo count (entries.get c)) disk disk' := by
  have hintact := h.intact c
  have hpos := List.length_pos_iff.2 hintact.ne_nil
  rw [h.table_eq, opened_items, opened_itemOffset] at hcount
  unfold keepTo
  generalize hkept : count - (firstOf (entries.get c)).offset.toNat = kept
  by_cases hlong : kept + 1 < (entries.get c).length
  · have hsum : count = (firstOf (entries.get c)).offset.toNat + kept := by omega
    have hmem : ∀ change ∈ cutting c.name (entries.get c) kept,
        IsFileWithin c.name (firstOf (entries.get c)).segment.toNat
          (lastOf (entries.get c)).segment.toNat change.name :=
      fun change hmem => isFileWithin_of_mem_cutting hintact hlong hmem
    have hfits := fits_cutting hintact hlong
    generalize hdisk' : disk.after place (cutting c.name (entries.get c) kept) = disk'
    have hrun := outcome_truncate (h.table_eq c) h.houses (h.named c) hintact hlong hdisk'.symm
    rw [← hsum] at hrun
    have hfolder : disk'.files.folder place =
        (disk.files.folder place).after (cutting c.name (entries.get c) kept) := by
      rw [← hdisk']
      exact Disk.folder_after h.houses (fun change hmem' => h.named c _ (hmem change hmem')) hfits
    have hintact' := (hintact.cutting hlong).1
    rw [← hfolder] at hintact'
    have hlast := hintact.segment_le (lastOf_take_mem hlong)
    obtain ⟨archive', hrun', hopen', htouches⟩ := h.onTable c
      (fun change hmem' => h.named c _ (hmem change hmem'))
      (fun change hmem' => (hmem change hmem').isFileOf hintact.head_le) hfits hdisk'.symm hrun
      hintact' fun file hfile => h.named c _ (by
        rw [firstOf_take] at hfile
        exact hfile.mono (Nat.le_refl _) hlast)
    refine ⟨archive', disk', hrun', ?_, hopen', htouches,
      stays_cutting h.houses (h.named c) hintact hlong hdisk'.symm⟩
    rw [cuttingTo, if_pos hlong, hdisk']
  · have hindex : (archive.tables.get c).index =
        some (.file (disk.files.number place (indexFileName c.name)) true) := by
      rw [h.table_eq, opened_index]
    have hitems : (archive.tables.get c).items ≤ count := by
      rw [h.table_eq, opened_items]
      omega
    have hrun : (Table.truncate count).outcome (archive.tables.get c, disk) = _ :=
      outcome_truncate_of_le hindex hitems
    nth_rewrite 2 [h.table_eq] at hrun
    obtain ⟨archive', hrun', hopen', htouches⟩ := h.onTable c
      (show ∀ change ∈ [], _ by simp) (by simp) trivial rfl hrun hintact (h.named c)
    rw [List.take_of_length_le (by omega), cuttingTo, if_neg hlong]
    exact ⟨archive', disk, hrun', rfl, hopen', htouches, (Untouched.refl _ _ _).stays _⟩

/-- The tables of the columns of a list are cut, one after the other; the rest of the columns come
after these. -/
theorem IsOpenOn.exists_cutColumns (h : archive.IsOpenOn names disk root place cap entries)
    {columns : List Column} (hnodup : columns.Nodup) {count : Nat}
    (hcount : ∀ c ∈ columns, count < (archive.tables.get c).items →
      (archive.tables.get c).itemOffset ≤ count) :
    ∃ archive' disk',
      (∀ rest : List Column,
        ((columns ++ rest).forM fun c => Archive.onTable c (Table.truncate count)).outcome
            (archive, disk) =
          (rest.forM fun c => Archive.onTable c (Table.truncate count)).outcome
            (archive', disk')) ∧
      archive'.IsOpenOn names disk' root place cap (keepIn columns count entries) ∧
      Touches names columns place archive disk archive' disk' ∧
      ∀ c : Column, Stays place c.name ((keepIn columns count entries).get c) disk disk' := by
  induction columns generalizing archive disk entries with
  | nil =>
      have hentries : keepIn [] count entries = entries := ByColumn.ext_get fun d => by
        simp [get_keepIn]
      rw [hentries]
      exact ⟨archive, disk, fun _ => rfl, h, .refl _ _ _ _ _,
        fun c => (Untouched.refl _ _ _).stays _⟩
  | cons c columns ih =>
      obtain ⟨hc, hnodup⟩ := List.nodup_cons.1 hnodup
      obtain ⟨archive₁, disk₁, hrun₁, -, hopen₁, htouches₁, hstays₁⟩ :=
        h.exists_cutColumn c (hcount c List.mem_cons_self)
      have hothers : ∀ d ≠ c, archive₁.tables.get d = archive.tables.get d ∧
          Untouched place d.name disk disk₁ := fun d hdc =>
        htouches₁.others d fun hd => hdc (List.mem_singleton.1 hd)
      obtain ⟨archive', disk', hrun', hopen', htouches', hstays'⟩ := ih hopen₁ hnodup
        fun d hd => by
          rw [(hothers d fun hdc => hc (hdc ▸ hd)).1]
          exact hcount d (List.mem_cons_of_mem _ hd)
      rw [keepIn_set hc] at hopen' hstays'
      refine ⟨archive', disk', fun rest => ?_, hopen', htouches₁.trans htouches', fun d => ?_⟩
      · rw [List.cons_append, List.forM, Attempt.outcome_bind_ok hrun₁, hrun']
      · refine Stays.trans ?_ (hstays' d)
        by_cases hdc : d = c
        · rw [hdc, get_keepIn, if_pos List.mem_cons_self]
          exact hstays₁
        · exact (hothers d hdc).2.stays _

theorem IsOpen.exists_cutColumn (h : archive.IsOpen disk root place cap entries items)
    (c : Column) (count : Nat) :
    ∃ archive' disk', (Archive.onTable c (Table.truncate count)).outcome (archive, disk) =
        (.ok (), (archive', disk')) ∧
      disk' = disk.after place (cuttingTo c.name (entries.get c) count) ∧
      archive'.IsOpen disk' root place cap (entries.set c ((entries.get c).take (count + 1)))
        (items.set c ((items.get c).take count)) ∧
      archive'.blocks = archive.blocks ∧
      Folder.Each (Mends count) (disk.files.folder place)
        (cuttingTo c.name (entries.get c) count) := by
  have hwhole := h.whole c
  have hcount : count < (archive.tables.get c).items → (archive.tables.get c).itemOffset ≤ count :=
    fun _ => by
      rw [h.table_eq, opened_itemOffset, hwhole.firstOf_offset]
      exact Nat.zero_le _
  obtain ⟨archive', disk', hrun, hdisk', hopen', htouches, hstays⟩ :=
    h.isOpenOn.exists_cutColumn c hcount
  rw [keepTo_of_unpruned hwhole.unpruned] at hopen' hstays
  rw [hwhole.firstOf_offset, Nat.sub_zero] at hdisk'
  refine ⟨archive', disk', hrun, hdisk', hopen'.isOpen (fun d => ?_) (fun d => ?_), htouches.blocks,
    ?_⟩
  · by_cases hdc : d = c
    · rw [hdc, ByColumn.get_set_same, firstOf_take, hwhole.unpruned]
    · rw [ByColumn.get_set_ne _ _ hdc, (h.whole d).unpruned]
  · by_cases hdc : d = c
    · subst hdc
      have hitems := (hwhole.toBacked.take count).storedItems_eq (by
        have hagrees := hstays.agrees
        rwa [grounded_eq_self (by rw [firstOf_take, hwhole.unpruned])] at hagrees)
      rw [ByColumn.get_set_same, ByColumn.get_set_same, hitems, storedItems_take, h.items]
    · rw [ByColumn.get_set_ne _ _ hdc, ByColumn.get_set_ne _ _ hdc, ← h.items]
      exact (h.whole d).toBacked.storedItems_eq
        ((htouches.others d fun hd => hdc (List.mem_singleton.1 hd)).2.files.agrees _)
  · unfold cuttingTo
    split
    · next hlong =>
        exact ⟨.cutIndex c hwhole hlong,
          (hwhole.each_trimming count hlong).imp fun _ _ h => .tidy c h⟩
    · trivial

/-- The tables of the columns of a list are cut, one after the other. -/
theorem IsOpen.exists_cutColumns (h : archive.IsOpen disk root place cap entries items)
    (count : Nat) {columns : List Column} (hnodup : columns.Nodup) :
    ∃ archive' disk', (columns.forM fun c => Archive.onTable c (Table.truncate count)).outcome
        (archive, disk) = (.ok (), (archive', disk')) ∧
      disk' = disk.after place (columns.flatMap fun c => cuttingTo c.name (entries.get c) count) ∧
      archive'.IsOpen disk' root place cap (takeIn columns (count + 1) entries)
        (takeIn columns count items) ∧
      archive'.blocks = archive.blocks ∧
      Folder.Each (Mends count) (disk.files.folder place)
        (columns.flatMap fun c => cuttingTo c.name (entries.get c) count) := by
  induction columns generalizing archive disk entries items with
  | nil =>
      refine ⟨archive, disk, rfl, rfl, ?_, rfl, trivial⟩
      have hentries : takeIn [] (count + 1) entries = entries := ByColumn.ext_get fun d => by
        simp [takeIn]
      have hitems : takeIn [] count items = items := ByColumn.ext_get fun d => by simp [takeIn]
      rwa [hentries, hitems]
  | cons c columns ih =>
      obtain ⟨hc, hnodup⟩ := List.nodup_cons.1 hnodup
      obtain ⟨archive₁, disk₁, hrun₁, hdisk₁, hopen₁, hblocks₁, heach₁⟩ :=
        h.exists_cutColumn c count
      obtain ⟨archive', disk', hrun', hdisk', hopen', hblocks', heach'⟩ := ih hopen₁ hnodup
      have hsame : (columns.flatMap fun d => cuttingTo d.name
          ((entries.set c ((entries.get c).take (count + 1))).get d) count) =
            columns.flatMap fun d => cuttingTo d.name (entries.get d) count := by
        refine List.flatMap_congr fun d hd => ?_
        rw [ByColumn.get_set_ne _ _ fun hdc : d = c => hc (hdc ▸ hd)]
      rw [hsame] at hdisk' heach'
      rw [takeIn_set hc, takeIn_set hc] at hopen'
      have hfolder₁ : disk₁.files.folder place =
          (disk.files.folder place).after (cuttingTo c.name (entries.get c) count) := by
        rw [hdisk₁]
        exact Disk.folder_after h.houses (fun change hmem => isFile_of_each_mends heach₁ hmem)
          (fits_of_each_mends heach₁)
      refine ⟨archive', disk', ?_, ?_, hopen', hblocks'.trans hblocks₁, ?_⟩
      · rw [List.forM, Attempt.outcome_bind_ok hrun₁, hrun']
      · rw [hdisk', hdisk₁, List.flatMap_cons, Disk.after_append]
      · rw [List.flatMap_cons, Folder.each_append]
        rw [hfolder₁] at heach'
        exact ⟨heach₁, heach'⟩

end BlockArchive.Archive
