import BlockArchive.Proofs.FileActions
import BlockArchive.Proofs.Performing

/-! # Directories under the names of files

Somebody may have made a directory where a file belongs.  It is in the way of who wants to write,
but does not keep the other files from being used.

* **`Obstructs files root place name`**: a directory stands there.
* **`Lodges files names all root place`**: of `all` names, a directory stands under some, and the
  others are housed.  It comes about when somebody makes a directory
  (`Houses.lodges_makeDirectory`), and changes to the files leave it so (`Disk.lodges_after`).
* **Opening.** What can be opened to be written to is none of the directories
  (`Disk.names_of_openFile`).  `Opens files place name handle` says what a handle is that was opened
  to be read (`Disk.opens_of_openFile_readOnly`).
* **One file.** `Disk.Sets` says that one file comes to hold something and that nothing else
  changes, with a lemma for each way to do so.
* **What remains.** `Remains` says of one file that it is not lost, and `Disk.Keeps` of all.  What
  is open under the name of a file that remains is that file then (`Opens.of_remains`). -/

namespace BlockArchive

namespace FileSystem

variable {files : FileSystem} {names all : String → Prop} {root : Path} {place : Location}
  {name : String}

/-- A directory stands under a name that a file could have. -/
structure Obstructs (files : FileSystem) (root : Path) (place : Location) (name : String) :
    Prop where
  entry : IsEntryName name
  fits : root.text.utf8ByteSize + name.utf8ByteSize < maxPathBytes
  directory : files.node? (place ++ [name]) = some .directory

/-- `root` leads to the directory `place`, in which each of the names stands for a plain file or is
free; under the names among `all` that are none of these a directory stands. -/
structure Lodges (files : FileSystem) (names all : String → Prop) (root : Path)
    (place : Location) : Prop extends Houses files names root place where
  others : ∀ name, all name → names name ∨ files.Obstructs root place name

/-- The handle is that of the file under a name, or of a directory. -/
inductive Opens (files : FileSystem) (place : Location) (name : String) : Handle → Prop where
  | directory : Opens files place name .directory
  | file (writable : Bool) : files.folder place name ≠ none →
      Opens files place name (.file (files.number place name) writable)

theorem Lodges.names_of_folder (h : files.Lodges names all root place) (hall : all name)
    (hfile : files.folder place name ≠ none) : names name := by
  refine (h.others name hall).resolve_right fun hobstructs => hfile ?_
  simp only [folder, hobstructs.directory]

/-- Somebody makes a directory where a file could have been. -/
theorem Houses.lodges_makeDirectory (h : files.Houses all root place) (hall : all name)
    (hfree : files.node? (place ++ [name]) = none) :
    ((Effect.makeDirectory (place ++ [name])).apply files).Lodges
      (fun other => all other ∧ other ≠ name) all root place := by
  have hways := sameWays_makeDirectory hfree
  have hmade : ((Effect.makeDirectory (place ++ [name])).apply files).node? (place ++ [name]) =
      some .directory := by
    rw [node?_makeDirectory, if_pos rfl]
  have hnode : ∀ other ≠ name,
      ((Effect.makeDirectory (place ++ [name])).apply files).node? (place ++ [other]) =
        files.node? (place ++ [other]) := by
    intro other hne
    rw [node?_makeDirectory, if_neg (by simpa using hne)]
  have hfile : ∀ other id, ((Effect.makeDirectory (place ++ [name])).apply files).node?
      (place ++ [other]) = some (.file id) → files.node? (place ++ [other]) = some (.file id) := by
    intro other id hid
    rwa [hnode other fun heq => by simp [heq, hmade] at hid] at hid
  exact {
    named := resolve_of_sameWays (.inl rfl) hways h.named h.directory
    directory := hways.directory _ h.directory
    home := hways.directory _ h.home
    entry := fun other hother => h.entry other hother.1
    fits := fun other hother => h.fits other hother.1
    takes := by
      intro other hother
      unfold TakesFile
      rw [hnode other hother.2]
      exact h.takes other hother.1
    numbered := fun other id hid => h.numbered other id (hfile other id hid)
    apart := fun a b id ha hb => h.apart a b id (hfile a id ha) (hfile b id hb)
    others := by
      intro other hother
      by_cases hne : other = name
      · subst hne
        exact .inr ⟨h.entry other hall, h.fits other hall, hmade⟩
      · exact .inl ⟨hother, hne⟩ }

end FileSystem

namespace Disk

open FileSystem

variable {disk disk' : Disk} {names all : String → Prop} {root : Path} {place : Location}
  {name : String} {changes : List Change} {mode : OpenMode} {handle : Handle}

/-- The directories stay where they are. -/
theorem lodges_after (h : disk.files.Lodges names all root place)
    (hnames : ∀ change ∈ changes, names change.name)
    (hfits : (disk.files.folder place).Fits changes) :
    (disk.after place changes).files.Lodges names all root place := by
  refine ⟨houses_after h.toHouses hnames hfits, fun name hall => ?_⟩
  by_cases hname : names name
  · exact .inl hname
  · have hobstructs := (h.others name hall).resolve_left hname
    refine .inr ⟨hobstructs.entry, hobstructs.fits, ?_⟩
    rw [node?_after_ne, hobstructs.directory]
    rintro change hmem rfl
    exact hname (hnames change hmem)

/-- What is opened to be written to is no directory. -/
theorem names_of_openFile (h : disk.files.Lodges names all root place) (hall : all name)
    (hmode : mode ≠ .readOnly)
    (hrun : (openFile (root.join name) mode).outcome disk = (.ok handle, disk')) :
    names name := by
  refine (h.others name hall).resolve_right fun hobstructs => ?_
  rw [outcome_openFile_of_directory h.toHouses hobstructs.entry hobstructs.fits
    hobstructs.directory, if_neg hmode] at hrun
  simp at hrun

/-- What is opened to be read is a directory or a file that is there, and is left as it is. -/
theorem opens_of_openFile_readOnly (h : disk.files.Lodges names all root place) (hall : all name)
    (hrun : (openFile (root.join name) .readOnly).outcome disk = (.ok handle, disk')) :
    disk' = disk ∧ disk.files.Opens place name handle := by
  rcases h.others name hall with hname | hobstructs
  · by_cases hfile : disk.files.folder place name = none
    · rw [outcome_openFile_of_none h.toHouses hname hfile, if_neg (by decide)] at hrun
      simp at hrun
    · rw [outcome_openFile_readOnly_of_some h.toHouses hname hfile] at hrun
      obtain ⟨rfl, rfl⟩ := by simpa using hrun
      exact ⟨rfl, .file false hfile⟩
  · rw [outcome_openFile_of_directory h.toHouses hobstructs.entry hobstructs.fits
      hobstructs.directory, if_pos rfl] at hrun
    obtain ⟨rfl, rfl⟩ := by simpa using hrun
    exact ⟨rfl, .directory⟩

/-- One file comes to hold something, or is gone, and all others stay as they are.  A file that
stays there keeps its number. -/
structure Sets (names all : String → Prop) (root : Path) (place : Location) (name : String)
    (content : Option Bytes) (disk disk' : Disk) : Prop where
  lodges : disk'.files.Lodges names all root place
  folder : disk'.files.folder place = Function.update (disk.files.folder place) name content
  number : ∀ other,
    (other = name → disk.files.folder place name ≠ none ∧ content ≠ none) →
      disk'.files.number place other = disk.files.number place other

namespace Sets

variable {content : Option Bytes} (h : Sets names all root place name content disk disk')
include h

theorem folder_self : disk'.files.folder place name = content := by
  rw [h.folder, Function.update_self]

theorem folder_of_ne {other : String} (hne : other ≠ name) :
    disk'.files.folder place other = disk.files.folder place other := by
  rw [h.folder, Function.update_of_ne hne]

theorem number_of_ne {other : String} (hne : other ≠ name) :
    disk'.files.number place other = disk.files.number place other :=
  h.number other fun heq => absurd heq hne

end Sets

section sets

variable (h : disk.files.Lodges names all root place) (hname : names name)
include h hname

theorem sets_after (hchanges : ∀ change ∈ changes, change.name = name)
    (hfits : (disk.files.folder place).Fits changes)
    (hstays : disk.files.folder place name ≠ none →
      (disk.files.folder place).after changes name ≠ none →
        ∀ change ∈ changes, change ≠ .make name ∧ change ≠ .remove name) :
    Sets names all root place name ((disk.files.folder place).after changes name) disk
      (disk.after place changes) := by
  have hnames : ∀ change ∈ changes, names change.name :=
    fun change hmem => hchanges change hmem ▸ hname
  refine ⟨lodges_after h hnames hfits, ?_, fun other hother => number_after fun change hmem => ?_⟩
  · rw [folder_after h.toHouses hnames hfits]
    refine Function.eq_update_iff.2 ⟨rfl, fun other hne => Folder.after_ne fun change hmem => ?_⟩
    rwa [hchanges change hmem]
  · by_cases hne : other = name
    · subst hne
      exact hstays (hother rfl).1 (hother rfl).2 change hmem
    · constructor <;> rintro rfl <;> exact hne (hchanges _ hmem)

/-- A file that is opened for update is made if it is missing. -/
theorem exists_openFile_update : ∃ disk',
    Sets names all root place name (some ((disk.files.folder place name).getD [])) disk disk' ∧
      (openFile (root.join name) .update).outcome disk =
        (.ok (.file (disk'.files.number place name) true), disk') := by
  refine ⟨_, ?_, outcome_openFile_update h.toHouses hname⟩
  have hsets := sets_after h hname (fun _ => Folder.name_of_mem_making) Folder.fits_making
    fun hthere _ => by simp [Folder.making, hthere]
  rwa [Folder.after_making, Function.update_self] at hsets

theorem sets_setLength {data : Bytes} (hdata : disk.files.folder place name = some data)
    (length : Nat) : Sets names all root place name (some (data.resize length)) disk
      (disk.change place (.setLength name length)) := by
  have hthere : disk.files.folder place name ≠ none := by simp [hdata]
  have hsets := @sets_after _ _ _ _ _ _ [.setLength name length] h hname (by simp [Change.name])
    ⟨hthere, trivial⟩ (by simp)
  rwa [Folder.after_cons, Folder.after_nil, Change.apply, Function.update_self, hdata] at hsets

theorem sets_remove (hthere : disk.files.folder place name ≠ none) :
    Sets names all root place name none disk (disk.change place (.remove name)) := by
  have hsets := @sets_after _ _ _ _ _ _ [.remove name] h hname (by simp [Change.name])
    ⟨hthere, trivial⟩ (by simp [Change.apply])
  rwa [Folder.after_cons, Folder.after_nil, Change.apply, Function.update_self] at hsets

end sets

theorem exists_openFile_fresh (h : disk.files.Lodges names all root place) (hname : names name) :
    ∃ disk', Sets names all root place name (some []) disk disk' ∧
      (openFile (root.join name) .fresh).outcome disk =
        (.ok (.file (disk'.files.number place name) true), disk') := by
  refine ⟨_, ?_, outcome_openFile_fresh h.toHouses hname⟩
  have hsets := sets_after h hname (fun _ => Folder.name_of_mem_renewing) Folder.fits_renewing
    fun hthere _ => by simp [Folder.renewing, hthere]
  rwa [Folder.after_renewing, Function.update_self] at hsets

theorem sets_write (h : disk.files.Lodges names all root place) (hname : names name) {data : Bytes}
    (hdata : disk.files.folder place name = some data) (start : Nat) (new : Bytes) :
    Sets names all root place name (some (data.overwrite start new)) disk
      (disk.after place (Folder.writing name start new)) := by
  have hthere : disk.files.folder place name ≠ none := by simp [hdata]
  have hsets := sets_after h hname (fun _ => Folder.name_of_mem_writing)
    (Folder.fits_writing hthere start new) fun _ _ change hmem => by
      rw [Folder.eq_of_mem_writing hmem]
      simp
  rwa [Folder.after_writing, Function.update_self, hdata, Option.map_some] at hsets

theorem sets_of_removeFile (h : disk.files.Lodges names all root place) (hall : all name)
    {answer : Except Error Unit}
    (hrun : (removeFile (root.join name)).outcome disk = (answer, disk'))
    (hanswer : answer = .ok () ∨ answer = .error (.io .notFound)) :
    Sets names all root place name none disk disk' := by
  rcases h.others name hall with hname | hobstructs
  · by_cases hthere : disk.files.folder place name = none
    · have hnode := h.node?_of_folder_none hname hthere
      rw [outcome_removeFile, h.resolve_join hname] at hrun
      simp only [hnode] at hrun
      obtain ⟨rfl, rfl⟩ := by simpa using hrun
      exact ⟨h, by rw [← hthere, Function.update_eq_self], fun _ _ => rfl⟩
    · rw [outcome_removeFile_of_some h.toHouses hname hthere] at hrun
      obtain ⟨rfl, rfl⟩ := by simpa using hrun
      exact sets_remove h hname hthere
  · have hresolve : disk.files.resolve .name (root.join name) = .ok (place ++ [name]) :=
      FileSystem.resolve_join h.named h.directory hobstructs.entry hobstructs.fits
        (by simp [hobstructs.directory])
    rw [outcome_removeFile, hresolve] at hrun
    simp only [hobstructs.directory] at hrun
    obtain ⟨rfl, rfl⟩ := by simpa using hrun
    simp at hanswer

end Disk

/-! ### What remains -/

/-- A file that is there remains there, under its number. -/
structure Remains (place : Location) (name : String) (disk disk' : Disk) : Prop where
  there : disk.files.folder place name ≠ none → disk'.files.folder place name ≠ none
  number : disk.files.folder place name ≠ none →
    disk'.files.number place name = disk.files.number place name

/-- No file is lost. -/
structure Disk.Keeps (names all : String → Prop) (root : Path) (place : Location)
    (disk disk' : Disk) : Prop where
  lodges : disk'.files.Lodges names all root place
  remains : ∀ name, Remains place name disk disk'

section remains

variable {names all : String → Prop} {root : Path} {place : Location} {name : String}
  {disk disk' disk'' : Disk} {handle : Handle}

theorem Remains.of_eq (hfolder : disk'.files.folder place name = disk.files.folder place name)
    (hnumber : disk'.files.number place name = disk.files.number place name) :
    Remains place name disk disk' :=
  ⟨fun hthere => hfolder ▸ hthere, fun _ => hnumber⟩

theorem Remains.trans (h : Remains place name disk disk') (h' : Remains place name disk' disk'') :
    Remains place name disk disk'' where
  there hthere := h'.there (h.there hthere)
  number hthere := (h'.number (h.there hthere)).trans (h.number hthere)

/-- What is open under a name is still open under it. -/
theorem FileSystem.Opens.of_remains (h : disk.files.Opens place name handle)
    (hremains : Remains place name disk disk') : disk'.files.Opens place name handle := by
  cases h with
  | directory => exact .directory
  | file writable hthere =>
      rw [← hremains.number hthere]
      exact .file writable (hremains.there hthere)

theorem Disk.Sets.remains {content : Option Bytes} {other : String}
    (h : Sets names all root place name content disk disk') (hother : other = name → content ≠ none) :
    Remains place other disk disk' := by
  by_cases hname : other = name
  · subst hname
    refine ⟨fun _ => ?_, fun hthere => h.number other fun heq => ⟨hthere, hother heq⟩⟩
    rw [h.folder_self]
    exact hother rfl
  · exact .of_eq (h.folder_of_ne hname) (h.number_of_ne hname)

namespace Disk

theorem Sets.keeps {data : Bytes} (h : Sets names all root place name (some data) disk disk') :
    Keeps names all root place disk disk' :=
  ⟨h.lodges, fun _ => h.remains fun _ => by simp⟩

theorem Keeps.refl (h : disk.files.Lodges names all root place) :
    Keeps names all root place disk disk :=
  ⟨h, fun _ => .of_eq rfl rfl⟩

theorem Keeps.trans (h : Keeps names all root place disk disk')
    (h' : Keeps names all root place disk' disk'') : Keeps names all root place disk disk'' :=
  ⟨h'.lodges, fun name => (h.remains name).trans (h'.remains name)⟩

theorem keeps_of_openFile (h : disk.files.Lodges names all root place) (hall : all name)
    {mode : OpenMode} (hmode : mode ≠ .existing)
    (hrun : (openFile (root.join name) mode).outcome disk = (.ok handle, disk')) :
    Keeps names all root place disk disk' ∧ disk'.files.Opens place name handle ∧
      ∀ other ≠ name, disk'.files.folder place other = disk.files.folder place other := by
  cases mode with
  | existing => exact absurd rfl hmode
  | readOnly =>
      obtain ⟨rfl, hopens⟩ := opens_of_openFile_readOnly h hall hrun
      exact ⟨.refl h, hopens, fun _ _ => rfl⟩
  | update =>
      obtain ⟨disk₁, hsets, hrun'⟩ :=
        exists_openFile_update h (names_of_openFile h hall (by decide) hrun)
      rw [hrun] at hrun'
      obtain ⟨rfl, rfl⟩ := by simpa using hrun'
      exact ⟨hsets.keeps, .file true (by simp [hsets.folder_self]), fun _ => hsets.folder_of_ne⟩
  | fresh =>
      obtain ⟨disk₁, hsets, hrun'⟩ :=
        exists_openFile_fresh h (names_of_openFile h hall (by decide) hrun)
      rw [hrun] at hrun'
      obtain ⟨rfl, rfl⟩ := by simpa using hrun'
      exact ⟨hsets.keeps, .file true (by simp [hsets.folder_self]), fun _ => hsets.folder_of_ne⟩

end Disk

end remains

end BlockArchive
