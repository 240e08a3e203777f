import BlockArchive.Proofs.Archive.Interrupted
import BlockArchive.Proofs.Archive.Ledger

/-! # Archives in new directories

* **`IsFreeFor files base place name`**: an archive can be made under a name in the directory
  `place`, where nothing has that name.  Opening makes its directory first, and there are no rows in
  it (`IsFreeFor.exists_openAt`).
* **Elsewhere.** What an archive does to the disk is seen in its own directory only
  (`FileSystem.SameOutside`), and other names stay free (`IsFreeFor.of_sameOutside`). -/

namespace BlockArchive

theorem Path.bare_join (path : Path) {name : String} (hslash : '/' ∉ name.toList)
    (hne : name ≠ "") : (path.join name).bare = path.join name := by
  obtain ⟨words, -, -, -, hjoin, -⟩ := path.exists_words_join hslash
  rw [bare, hjoin, List.reverse_append, List.reverse_singleton, List.singleton_append,
    List.dropWhile_cons_of_neg (by simpa using hne), List.reverse_cons, List.reverse_reverse,
    ← hjoin]

namespace Disk

/-- The disk after a directory was made. -/
def withDirectory (disk : Disk) (place : Location) : Disk where
  files := (Effect.makeDirectory place).apply disk.files
  locked := disk.locked
  journal := .makeDirectory place :: disk.journal

end Disk

namespace Archive

variable {archive : Archive} {disk : Disk} {root base : Path} {place : Location}
  {name other : String} {files files' : FileSystem} {rows : List Row} {row : Row}
  {settings : Settings}

/-! ### Free names -/

/-- `base` leads to the directory `place`, in which nothing has the name, and paths to the files of
an archive with that name are not too long. -/
structure IsFreeFor (files : FileSystem) (base : Path) (place : Location) (name : String) :
    Prop where
  named : files.resolve .name base = .ok place
  directory : files.node? place = some .directory
  /-- Relative paths start in a directory. -/
  home : files.node? files.home = some .directory
  entry : FileSystem.IsEntryName name
  free : ∀ below, files.node? (place ++ name :: below) = none
  fits : base.text.utf8ByteSize + 1 + name.utf8ByteSize + maxFileNameBytes <
    FileSystem.maxPathBytes

namespace IsFreeFor

theorem node?_eq_none (h : IsFreeFor files base place name) :
    files.node? (place ++ [name]) = none :=
  h.free []

theorem resolve_join (h : IsFreeFor files base place name) :
    files.resolve .name (base.join name) = .ok (place ++ [name]) := by
  have := h.fits
  exact FileSystem.resolve_join h.named h.directory h.entry (by omega) (by simp [h.node?_eq_none])

/-- The name stays free as long as the ways stay and nothing appears under it. -/
theorem congr (h : IsFreeFor files base place name) (hways : files.SameWays files')
    (hnode : ∀ below, files'.node? (place ++ name :: below) = files.node? (place ++ name :: below)) :
    IsFreeFor files' base place name where
  named := FileSystem.resolve_of_sameWays (.inl rfl) hways h.named h.directory
  directory := hways.directory _ h.directory
  home := by
    rw [hways.home]
    exact hways.directory _ h.home
  entry := h.entry
  free below := (hnode below).trans (h.free below)
  fits := h.fits

theorem makeDirectory (h : IsFreeFor files base place name) (hne : name ≠ other)
    (hother : files.node? (place ++ [other]) = none) :
    IsFreeFor ((Effect.makeDirectory (place ++ [other])).apply files) base place name := by
  refine h.congr (FileSystem.sameWays_makeDirectory hother) fun below => ?_
  rw [FileSystem.node?_makeDirectory, if_neg]
  simp [hne]

/-- A name stays free when something is done in another directory. -/
theorem of_sameOutside (h : IsFreeFor files base place name) (hne : name ≠ other)
    (hsame : files.SameOutside (place ++ [other]) files') : IsFreeFor files' base place name := by
  refine h.congr hsame.toSameWays fun below => hsame.node _ fun file => ?_
  simp [hne]

theorem emptyRoot (h : IsFreeFor files base place name) :
    EmptyRoot ((Effect.makeDirectory (place ++ [name])).apply files) (base.join name)
      (place ++ [name]) := by
  have hways := FileSystem.sameWays_makeDirectory h.node?_eq_none
  have hmade : ((Effect.makeDirectory (place ++ [name])).apply files).node? (place ++ [name]) =
      some .directory := by
    rw [FileSystem.node?_makeDirectory, if_pos rfl]
  have hfits := h.fits
  refine ⟨?_, hmade, ?_, fun file => ?_, ?_⟩
  · exact FileSystem.resolve_join
      (FileSystem.resolve_of_sameWays (.inl rfl) hways h.named h.directory)
      (hways.directory _ h.directory) h.entry (by omega) (by simp [hmade])
  · rw [hways.home]
    exact hways.directory _ h.home
  · rw [FileSystem.node?_makeDirectory, if_neg (by simp), List.append_assoc]
    exact h.free [file]
  · obtain ⟨slash, hslash, htext⟩ := base.exists_text_join h.entry.no_slash
    have hsize : slash.utf8ByteSize ≤ 1 := by rcases hslash with rfl | rfl <;> decide
    rw [htext, String.utf8ByteSize_append, String.utf8ByteSize_append]
    omega

theorem outcome_checkRoot (h : IsFreeFor disk.files base place name)
    (hcreate : settings.create = true) :
    (checkRoot (base.join name) settings).outcome disk = (.ok (), disk) := by
  have hstatus : disk.files.linkStatus (base.join name) = .error .notFound := by
    unfold FileSystem.linkStatus
    rw [h.resolve_join]
    simp only [h.node?_eq_none]
  unfold checkRoot
  rw [Attempt.outcome_bind_ok (Attempt.outcome_get disk)]
  simp only [hstatus, hcreate]
  rfl

theorem outcome_makeDirectories (h : IsFreeFor disk.files base place name) :
    (Disk.makeDirectories (base.join name)).outcome disk =
      (.ok (), disk.withDirectory (place ++ [name])) := by
  have hmake : (Disk.makeDirectory (base.join name)).outcome disk =
      (.ok (), disk.withDirectory (place ++ [name])) := by
    unfold Disk.makeDirectory
    rw [Attempt.outcome_bind_ok (Attempt.outcome_get disk),
      Path.bare_join _ h.entry.no_slash h.entry.ne_empty]
    simp only [h.resolve_join]
    rw [Attempt.outcome_bind_ok (Action.outcome_ofIo _ _)]
    simp only [h.node?_eq_none]
    rfl
  unfold Disk.makeDirectories Disk.makeDirectoryAfter
  simp only
  rw [Attempt.outcome_tryCatch, hmake]

/-- Where nothing is, opening makes the directory and goes on as in one that is there. -/
theorem outcome_openAt (h : IsFreeFor disk.files base place name)
    (hcreate : settings.create = true) :
    (openAt (base.join name) settings).outcome disk =
      (openAt (base.join name) settings).outcome (disk.withDirectory (place ++ [name])) := by
  have hhouses : (disk.withDirectory (place ++ [name])).files.Houses IsFile (base.join name)
      (place ++ [name]) := h.emptyRoot.houses
  unfold openAt
  rw [Attempt.outcome_bind_ok (h.outcome_checkRoot hcreate),
    Attempt.outcome_bind_ok h.outcome_makeDirectories,
    Attempt.outcome_bind_ok (Archive.outcome_checkRoot hhouses settings),
    Attempt.outcome_bind_ok (Disk.outcome_makeDirectories hhouses)]

end IsFreeFor

/-! ### Elsewhere on the disk -/

theorem sameOutside_after (hhouses : disk.files.Houses IsFile root place) {changes : List Change}
    (h : ∀ change ∈ changes, IsFile change.name) :
    disk.files.SameOutside place (disk.after place changes).files :=
  Disk.sameOutside_after fun change hmem => hhouses.takes _ (h change hmem)

theorem Keeps.exists_openAt_within (h : Keeps disk root place rows) (settings : Settings) :
    ∃ archive disk', (openAt root settings).outcome disk = (.ok archive, disk') ∧
      archive.Stores disk' root place rows ∧ disk.files.SameOutside place disk'.files := by
  obtain ⟨hhouses, hlocked, entries, hrestores, hclimbs⟩ := h
  obtain ⟨archive, changes, disk', hrun, hdisk', heach, -, hopen, hblocks⟩ :=
    Archive.exists_openAt hhouses hlocked hrestores settings
  refine ⟨archive, disk', hrun, ⟨_, _, hopen, hblocks, hclimbs⟩, ?_⟩
  rw [hdisk']
  exact sameOutside_after hhouses fun change hmem => isFile_of_each_mends heach hmem

theorem Stores.exists_append_within (h : archive.Stores disk root place rows)
    (hrows : rows.length < lastSegmentId)
    (hshort : ∀ c : Column, (row.get c).length < offsetLimit) :
    ∃ archive' disk', (append rows.length row).outcome (archive, disk) =
        (.ok (), (archive', disk')) ∧
      archive'.Stores disk' root place (rows ++ [row]) ∧
      disk.files.SameOutside place disk'.files := by
  obtain ⟨archive', disk', hrun, hstores⟩ := h.exists_append_of_short hrows hshort
  refine ⟨archive', disk', hrun, hstores, ?_⟩
  have hok : ((append rows.length row).outcome (archive, disk)).1 = .ok () := by rw [hrun]
  obtain ⟨hroom, -⟩ := h.performs_append hok
  obtain ⟨cap, entries, hopen, hblocks, -⟩ := h
  obtain ⟨_, _, hrun', hdisk', -⟩ := hopen.exists_append hblocks hroom
  rw [hrun] at hrun'
  obtain ⟨-, heq⟩ := Prod.mk.inj hrun'
  obtain ⟨-, rfl⟩ := Prod.mk.inj heq
  rw [hdisk']
  refine sameOutside_after hopen.houses fun change hmem => ?_
  obtain ⟨c, -, hmem⟩ := List.mem_flatMap.1 hmem
  exact isFile_of_isFileOf ((hopen.isOpenOn.isFileWithin_of_mem_appending hmem).isFileOf
    ((hroom c).slot_le (hopen.isOpenOn.headId_le c)))

/-- An archive that is made under a free name has no rows. -/
theorem IsFreeFor.exists_openAt (h : IsFreeFor disk.files base place name)
    (hlocked : disk.locked = []) (settings : Settings) (hcreate : settings.create = true) :
    ∃ archive disk', (openAt (base.join name) settings).outcome disk = (.ok archive, disk') ∧
      archive.Stores disk' (base.join name) (place ++ [name]) [] ∧
      (disk.withDirectory (place ++ [name])).files.SameOutside (place ++ [name]) disk'.files := by
  obtain ⟨hhouses, -, hentries⟩ := h.emptyRoot.keeps
  have hkeeps : Keeps (disk.withDirectory (place ++ [name])) (base.join name) (place ++ [name]) [] :=
    ⟨hhouses, hlocked, hentries⟩
  rw [h.outcome_openAt hcreate]
  exact hkeeps.exists_openAt_within settings

end Archive

end BlockArchive
