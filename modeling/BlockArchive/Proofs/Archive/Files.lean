import BlockArchive.Archive
import BlockArchive.Proofs.Listing
import BlockArchive.Proofs.Table.Cutting

/-! # The files of an archive

The files of an archive are its lock file and the files of its five tables.

* **Apart.** No file belongs to two tables, and none of a table is the lock file, so that a table is
  left alone by what is done to the others (`sameFiles_after`).
* **`Restores`**: what a repair of the five tables keeps, cut to the shortest of them, are these
  entries, and they bound these rows.
* **`Mends`** lists the steps that leave it so: tidying up one table, making the lock file, and
  cutting an index that is too long (`Restores.mends`, `Restores.after`). -/

namespace BlockArchive.Archive

open IndexEntry Table

/-- The names of the files of an archive. -/
def IsFile (file : String) : Prop :=
  file = DirectoryLock.fileName ∨ ∃ c : Column, IsFileOf c.name file

theorem isFile_lock : IsFile DirectoryLock.fileName := .inl rfl

theorem isFile_of_isFileOf {c : Column} {file : String} (h : IsFileOf c.name file) : IsFile file :=
  .inr ⟨c, h⟩

theorem isName_name (c : Column) :
    '/' ∉ c.name.toList ∧ '\x00' ∉ c.name.toList ∧ c.name.utf8ByteSize ≤ 12 := by
  cases c <;> decide

theorem isEntryName_lock : FileSystem.IsEntryName DirectoryLock.fileName where
  ne_empty := by decide
  ne_dot := by decide
  ne_dots := by decide
  no_slash := by decide
  no_null := by decide
  short := by decide

theorem isEntryName_of_isFile {file : String} (h : IsFile file) : FileSystem.IsEntryName file := by
  rcases h with rfl | ⟨c, rfl | ⟨id, hid, rfl⟩⟩
  · exact isEntryName_lock
  · obtain ⟨hslash, hnull, hsize⟩ := isName_name c
    exact isEntryName_indexFileName hslash hnull (by simp [FileSystem.maxNameBytes]; omega)
  · obtain ⟨hslash, hnull, hsize⟩ := isName_name c
    exact isEntryName_segmentFileName hslash hnull (by simp [FileSystem.maxNameBytes]; omega) hid

/-- The most bytes in the name of a file of an archive. -/
def maxFileNameBytes : Nat := 23

theorem utf8ByteSize_le_of_isFile {file : String} (h : IsFile file) :
    file.utf8ByteSize ≤ maxFileNameBytes := by
  unfold maxFileNameBytes
  rcases h with rfl | ⟨c, rfl | ⟨id, hid, rfl⟩⟩
  · decide
  · have := (isName_name c).2.2
    rw [utf8ByteSize_indexFileName]
    omega
  · have hsize := (isName_name c).2.2
    have := @utf8ByteSize_segmentFileName c.name id hid
    omega

/-- A directory with given files houses those of an archive. -/
theorem houses_ofListing (listing : List (String × Bytes)) :
    (FileSystem.ofListing listing).Houses IsFile ⟨["", "a"]⟩ ["a"] := by
  refine FileSystem.houses_ofListing (fun _ => isEntryName_of_isFile) (fun name hname => ?_) listing
  have hroot : (⟨["", "a"]⟩ : Path).text.utf8ByteSize + maxFileNameBytes <
      FileSystem.maxPathBytes := by decide
  have := utf8ByteSize_le_of_isFile hname
  omega

/-! ### Apart -/

/-- A name that belongs to one table belongs to no other. -/
theorem column_eq_of_isFileOf {c d : Column} {file : String} (hc : IsFileOf c.name file)
    (hd : file = indexFileName d.name ∨ ∃ id, file = segmentFileName d.name id) : c = d := by
  rcases hc with rfl | ⟨id, -, rfl⟩
  · rcases hd with hd | ⟨id', hd⟩
    · exact Column.name_injective (indexFileName_injective hd)
    · exact absurd hd (indexFileName_ne_segmentFileName _ _ _)
  · rcases hd with hd | ⟨id', hd⟩
    · exact absurd hd.symm (indexFileName_ne_segmentFileName _ _ _)
    · exact Column.name_injective (segmentFileName_injective hd).1

theorem ne_lock_of_isFileOf {c : Column} {file : String} (h : IsFileOf c.name file) :
    file ≠ DirectoryLock.fileName := by
  rcases h with rfl | ⟨id, -, rfl⟩
  · exact indexFileName_ne_lock _
  · exact segmentFileName_ne_lock _ _

variable {folder folder' : Folder} {change : Change} {changes : List Change} {c d : Column}

/-- Changes to other files leave a table alone. -/
theorem sameFiles_after (h : ∀ change ∈ changes, change.name = DirectoryLock.fileName ∨
    ∃ c ≠ d, IsFileOf c.name change.name) : SameFiles folder (folder.after changes) d.name := by
  have hne : ∀ file, (file = indexFileName d.name ∨ ∃ id, file = segmentFileName d.name id) →
      ∀ change ∈ changes, file ≠ change.name := by
    rintro file hfile change hmem rfl
    rcases h change hmem with hlock | ⟨c, hcd, hc⟩
    · rcases hfile with hfile | ⟨id, hfile⟩
      · exact indexFileName_ne_lock _ (hfile.symm.trans hlock)
      · exact segmentFileName_ne_lock _ _ (hfile.symm.trans hlock)
    · exact hcd (column_eq_of_isFileOf hc hfile)
  exact ⟨Folder.after_ne (hne _ (.inl rfl)), fun id => Folder.after_ne (hne _ (.inr ⟨id, rfl⟩))⟩

theorem sameFiles_after_making :
    SameFiles folder (folder.after (folder.making DirectoryLock.fileName)) d.name :=
  sameFiles_after fun _ hmem => .inl (Folder.name_of_mem_making hmem)

theorem sameFiles_apply (h : IsFileOf c.name change.name) (hcd : c ≠ d) :
    SameFiles folder (change.apply folder) d.name := by
  have hsame : SameFiles folder (folder.after [change]) d.name := sameFiles_after fun _ hmem => by
    rw [List.mem_singleton.1 hmem]
    exact .inr ⟨c, hcd, h⟩
  exact hsame

theorem sameFiles_makeLock :
    SameFiles folder (Change.apply folder (.make DirectoryLock.fileName)) d.name := by
  have hsame : SameFiles folder (folder.after [.make DirectoryLock.fileName]) d.name :=
    sameFiles_after fun _ hmem => by
      rw [List.mem_singleton.1 hmem]
      exact .inl rfl
  exact hsame

/-! ### Files that an archive is restored from -/

/-- A repair of the five tables keeps these entries, cut to the shortest table, and these are the
rows that they bound. -/
structure Restores (folder : Folder) (entries : ByColumn (List IndexEntry)) (rows : List Row) :
    Prop where
  recovers : ∀ c : Column, Recovers folder c.name (kept folder c.name)
  enough : ∀ c : Column, rows.length < (kept folder c.name).length
  shortest : ∃ c : Column, (kept folder c.name).length = rows.length + 1
  entries_eq : ∀ c : Column, entries.get c = (kept folder c.name).take (rows.length + 1)
  items : ∀ c : Column, storedItems folder c.name (entries.get c) = rows.map fun row => row.get c

theorem exists_restores_of_items {rows : List Row} {items : Column → List Bytes}
    (h : ∀ c : Column, ∃ all, Recovers folder c.name all ∧ storedItems folder c.name all = items c)
    (hrows : ∀ c : Column, (items c).take rows.length = rows.map fun row => row.get c)
    (hshort : ∃ c : Column, (items c).length = rows.length) :
    ∃ entries, Restores folder entries rows := by
  have hkept : ∀ c : Column, Recovers folder c.name (kept folder c.name) ∧
      storedItems folder c.name (kept folder c.name) = items c := by
    intro c
    obtain ⟨all, hall, hitems⟩ := h c
    rw [hall.kept]
    exact ⟨hall, hitems⟩
  have hlength : ∀ c : Column, (kept folder c.name).length = (items c).length + 1 := fun c =>
    length_of_storedItems (hkept c).1.ne_nil (hkept c).2
  refine ⟨.ofFn fun c => (kept folder c.name).take (rows.length + 1), fun c => (hkept c).1,
    fun c => ?_, ?_, fun c => ByColumn.get_ofFn _ _, fun c => ?_⟩
  · have hlen := congrArg List.length (hrows c)
    rw [List.length_take, List.length_map] at hlen
    rw [hlength]
    omega
  · obtain ⟨c, hc⟩ := hshort
    exact ⟨c, by rw [hlength, hc]⟩
  · rw [ByColumn.get_ofFn, storedItems_take, (hkept c).2, hrows]

theorem Restores.climbs {entries : ByColumn (List IndexEntry)} {rows : List Row}
    (h : Restores folder entries rows) (hkept : ∀ c : Column, Climbs (kept folder c.name))
    (c : Column) : Climbs (entries.get c) := by
  rw [h.entries_eq]
  exact (hkept c).take _

/-- No segment was left out in what is restored, if none was in what a repair keeps. -/
theorem exists_restores_of_climbs {rows : List Row} {items : Column → List Bytes}
    (h : ∀ c : Column, ∃ all, Recovers folder c.name all ∧ storedItems folder c.name all = items c ∧
      Climbs all)
    (hrows : ∀ c : Column, (items c).take rows.length = rows.map fun row => row.get c)
    (hshort : ∃ c : Column, (items c).length = rows.length) :
    ∃ entries, Restores folder entries rows ∧ ∀ c : Column, Climbs (entries.get c) := by
  obtain ⟨entries, hrestores⟩ := exists_restores_of_items
    (fun c => (h c).imp fun all h => ⟨h.1, h.2.1⟩) hrows hshort
  refine ⟨entries, hrestores, hrestores.climbs fun c => ?_⟩
  obtain ⟨all, hall, -, hclimbs⟩ := h c
  rw [hall.kept]
  exact hclimbs

/-- A step that leaves it so, when `count` rows are restored. -/
inductive Mends (count : Nat) (folder : Folder) : Change → Prop where
  /-- The lock file is made. -/
  | makeLock (hfree : folder DirectoryLock.fileName = none) :
      Mends count folder (.make DirectoryLock.fileName)
  /-- One table is tidied up. -/
  | tidy (c : Column) {change : Change} (h : Tidies c.name folder change) :
      Mends count folder change
  /-- The index of a table at rest, which is too long, is cut. -/
  | cutIndex (c : Column) {entries : List IndexEntry} (h : Whole folder c.name entries)
      (hcount : count + 1 < entries.length) :
      Mends count folder (.setLength (indexFileName c.name) (position (count + 1)))

variable {count : Nat} {entries : ByColumn (List IndexEntry)} {rows : List Row}

theorem Mends.fits (h : Mends count folder change) : change.Fits folder := by
  cases h with
  | makeLock hfree => exact hfree
  | tidy c h => exact h.fits
  | cutIndex c h hcount => simp [Change.Fits, h.index]

theorem Mends.isFile (h : Mends count folder change) : IsFile change.name := by
  cases h with
  | makeLock hfree => exact isFile_lock
  | tidy c h => exact isFile_of_isFileOf h.isFileOf
  | cutIndex c h hcount => exact isFile_of_isFileOf (isFileOf_index c.name)

theorem each_mends_cutShort {run cut : List Change} (h : Folder.Each (Mends count) folder run)
    (hcut : Change.CutShort run cut) : Folder.Each (Mends count) folder cut := by
  refine h.cutShort (fun folder name start data taken h => ?_) hcut
  cases h with
  | tidy c h => exact .tidy c (h.take taken)

theorem fits_of_each_mends (h : Folder.Each (Mends count) folder changes) : folder.Fits changes :=
  h.imp fun _ _ h => h.fits

theorem isFile_of_each_mends (h : Folder.Each (Mends count) folder changes)
    (hmem : change ∈ changes) : IsFile change.name := by
  induction changes generalizing folder with
  | nil => simp at hmem
  | cons first changes ih =>
      rcases List.mem_cons.1 hmem with rfl | hmem
      · exact h.1.isFile
      · exact ih h.2 hmem

theorem Mends.column (h : Mends count folder change) {all : List IndexEntry}
    (hall : Recovers folder d.name all) (hcount : count < all.length) :
    ∃ all', Recovers (change.apply folder) d.name all' ∧
      all'.take (count + 1) = all.take (count + 1) ∧ count < all'.length ∧
      all'.length ≤ all.length ∧
      Agrees folder (change.apply folder) d.name (all.take (count + 1)) := by
  have hother : SameFiles folder (change.apply folder) d.name → ∃ all',
      Recovers (change.apply folder) d.name all' ∧
        all'.take (count + 1) = all.take (count + 1) ∧ count < all'.length ∧
        all'.length ≤ all.length ∧
        Agrees folder (change.apply folder) d.name (all.take (count + 1)) := fun hsame =>
    ⟨all, hall.congr hsame, rfl, hcount, Nat.le_refl _, hsame.agrees _⟩
  cases h with
  | makeLock hfree => exact hother sameFiles_makeLock
  | tidy c h =>
      by_cases hcd : c = d
      · subst hcd
        obtain ⟨hall', hagree⟩ := hall.tidies h
        exact ⟨all, hall', rfl, hcount, Nat.le_refl _, hall.toBacked.agrees_take hagree count⟩
      · exact hother (sameFiles_apply h.isFileOf hcd)
  | @cutIndex c entries h hlong =>
      by_cases hcd : c = d
      · subst hcd
        obtain rfl : all = entries := hall.kept.symm.trans h.recovers.kept
        obtain ⟨-, hall', hagree⟩ := h.recovers_cutIndex count hlong
        refine ⟨all.take (count + 1), hall', ?_, ?_, ?_, hall.toBacked.agrees_take hagree count⟩
        · rw [List.take_take, Nat.min_self]
        · rw [List.length_take]
          omega
        · rw [List.length_take]
          omega
      · exact hother (sameFiles_apply (isFileOf_index c.name) hcd)

/-- A mending step leaves what an archive is restored from. -/
theorem Restores.mends (h : Restores folder entries rows)
    (hstep : Mends rows.length folder change) : Restores (change.apply folder) entries rows := by
  have hcolumn : ∀ c : Column, ∃ all', kept (change.apply folder) c.name = all' ∧
      Recovers (change.apply folder) c.name all' ∧
      all'.take (rows.length + 1) = (kept folder c.name).take (rows.length + 1) ∧
      rows.length < all'.length ∧ all'.length ≤ (kept folder c.name).length ∧
      storedItems (change.apply folder) c.name (entries.get c) =
        storedItems folder c.name (entries.get c) := by
    intro c
    obtain ⟨all', hall', htake, hcount, hle, hagree⟩ := hstep.column (h.recovers c) (h.enough c)
    refine ⟨all', hall'.kept, hall', htake, hcount, hle, ?_⟩
    rw [h.entries_eq]
    exact ((h.recovers c).toBacked.take _).storedItems_eq hagree
  obtain ⟨c₀, hshortest⟩ := h.shortest
  refine ⟨fun c => ?_, fun c => ?_, ⟨c₀, ?_⟩, fun c => ?_, fun c => ?_⟩
  · obtain ⟨all', rfl, hall', -⟩ := hcolumn c
    exact hall'
  · obtain ⟨all', rfl, -, -, hcount, -⟩ := hcolumn c
    exact hcount
  · obtain ⟨all', rfl, -, -, hcount, hle, -⟩ := hcolumn c₀
    omega
  · obtain ⟨all', rfl, -, htake, -⟩ := hcolumn c
    rw [h.entries_eq, htake]
  · obtain ⟨all', -, -, -, -, -, hitems⟩ := hcolumn c
    rw [hitems, h.items]

/-- Mending steps, one after the other, leave what is restored. -/
theorem Restores.after (h : Restores folder entries rows)
    (hsteps : Folder.Each (Mends rows.length) folder changes) :
    Restores (folder.after changes) entries rows := by
  have hkeep : ∀ folder change, Restores folder entries rows → Mends rows.length folder change →
      Restores (change.apply folder) entries rows := fun _ _ h hstep => h.mends hstep
  exact hsteps.preserves hkeep h

/-- Tables at rest, of which each holds just its column of the rows. -/
structure Rests (folder : Folder) (entries : ByColumn (List IndexEntry)) (rows : List Row) :
    Prop where
  whole : ∀ c : Column, Whole folder c.name (entries.get c)
  items : ∀ c : Column, storedItems folder c.name (entries.get c) = rows.map fun row => row.get c

theorem Rests.length_entries (h : Rests folder entries rows) (c : Column) :
    (entries.get c).length = rows.length + 1 := by
  rw [length_of_storedItems (h.whole c).ne_nil (h.items c), List.length_map]

/-- Tables at rest are restored as they are. -/
theorem Rests.restores (h : Rests folder entries rows) : Restores folder entries rows := by
  have hkept : ∀ c : Column, kept folder c.name = entries.get c := fun c =>
    (h.whole c).recovers.kept
  refine ⟨fun c => ?_, fun c => ?_, ⟨.hashes, ?_⟩, fun c => ?_, h.items⟩
  · rw [hkept]
    exact (h.whole c).recovers
  · rw [hkept, h.length_entries]
    exact Nat.lt_succ_self _
  · rw [hkept, h.length_entries]
  · rw [hkept, List.take_of_length_le (Nat.le_of_eq (h.length_entries c))]

end BlockArchive.Archive
