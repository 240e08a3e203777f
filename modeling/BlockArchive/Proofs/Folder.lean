import Mathlib.Logic.Function.Basic
import BlockArchive.Disk
import BlockArchive.Proofs.Resolution

/-! # A directory as a folder of files

What an archive does to a disk happens in one directory, to plain files.  There a disk can be seen
as a folder, a map from names to contents.

* **`Houses names root place`**: the path `root` leads to the directory `place`, in which each of
  the names stands for a plain file or is free, and no file has two names.
* **`Change`** is a small step of change in terms of names.  `Change.effect` is the effect that
  brings it about on a disk, and `Disk.after` the disk after a list of them.
* **Soundness.** A change that fits the folder keeps a directory housing the names
  (`houses_after`), and does to the folder what `Change.apply` says (`folder_after`). -/

namespace BlockArchive

/-- What the files of a directory hold, by name. -/
abbrev Folder := String → Option Bytes

/-- One step of change to the files of a directory. -/
inductive Change where
  /-- An empty file appears. -/
  | make (name : String)
  /-- Bytes are written over a file. -/
  | write (name : String) (start : Nat) (data : Bytes)
  /-- A file is cut or filled up to a length. -/
  | setLength (name : String) (length : Nat)
  /-- A name disappears. -/
  | remove (name : String)
deriving DecidableEq, Repr

namespace Change

/-- The name of the file that is changed. -/
def name : Change → String
  | make name => name
  | write name _ _ => name
  | setLength name _ => name
  | remove name => name

/-- The folder after the step. -/
def apply (folder : Folder) : Change → Folder
  | make name => Function.update folder name (some [])
  | write name start data =>
      Function.update folder name ((folder name).map fun content => content.overwrite start data)
  | setLength name length =>
      Function.update folder name ((folder name).map fun content => content.resize length)
  | remove name => Function.update folder name none

/-- Whether the step can be taken: a file is made where there is none, and all else is done to
files that are there. -/
def Fits (folder : Folder) : Change → Prop
  | make name => folder name = none
  | write name _ _ => folder name ≠ none
  | setLength name _ => folder name ≠ none
  | remove name => folder name ≠ none

theorem apply_ne (folder : Folder) (change : Change) {other : String} (h : other ≠ change.name) :
    change.apply folder other = folder other := by
  cases change <;> exact Function.update_of_ne h _ _

theorem apply_congr {folder folder' : Folder} {file : String} (h : folder file = folder' file)
    (change : Change) : change.apply folder file = change.apply folder' file := by
  by_cases hfile : file = change.name
  · subst hfile
    cases change <;> simp only [name] at h <;> simp [apply, name, h]
  · rw [apply_ne _ _ hfile, apply_ne _ _ hfile, h]

theorem Fits.congr {folder folder' : Folder} {change : Change}
    (h : folder change.name = folder' change.name) (hfits : change.Fits folder) :
    change.Fits folder' := by
  cases change <;> simp only [name] at h <;> simpa [Fits, h] using hfits

end Change

namespace Folder

/-- The folder after a list of steps, the first one first. -/
def after (folder : Folder) (changes : List Change) : Folder :=
  changes.foldl Change.apply folder

/-- Whether each of the steps is allowed in the folder in which it is taken. -/
def Each (allowed : Folder → Change → Prop) (folder : Folder) : List Change → Prop
  | [] => True
  | change :: changes => allowed folder change ∧ Each allowed (change.apply folder) changes

/-- Whether the steps can be taken one after the other. -/
abbrev Fits (folder : Folder) (changes : List Change) : Prop :=
  Each (fun folder change => change.Fits folder) folder changes

@[simp] theorem after_nil (folder : Folder) : folder.after [] = folder := rfl

@[simp] theorem after_cons (folder : Folder) (change : Change) (changes : List Change) :
    folder.after (change :: changes) = (change.apply folder).after changes := rfl

theorem after_append (folder : Folder) (first second : List Change) :
    folder.after (first ++ second) = (folder.after first).after second := by
  simp [after]

theorem each_append {allowed : Folder → Change → Prop} (folder : Folder)
    (first second : List Change) :
    Each allowed folder (first ++ second) ↔
      Each allowed folder first ∧ Each allowed (folder.after first) second := by
  induction first generalizing folder with
  | nil => simp [Each]
  | cons change first ih => simp [Each, ih, and_assoc]

theorem Each.imp {allowed allowed' : Folder → Change → Prop} {folder : Folder}
    {changes : List Change} (himp : ∀ folder change, allowed folder change → allowed' folder change)
    (h : Each allowed folder changes) : Each allowed' folder changes := by
  induction changes generalizing folder with
  | nil => trivial
  | cons change changes ih => exact ⟨himp _ _ h.1, ih h.2⟩

/-- What every allowed step preserves is preserved by them all. -/
theorem Each.preserves {allowed : Folder → Change → Prop} {invariant : Folder → Prop}
    (hstep : ∀ folder change, invariant folder → allowed folder change →
      invariant (change.apply folder))
    {folder : Folder} {changes : List Change} (h : Each allowed folder changes)
    (hstart : invariant folder) : invariant (folder.after changes) := by
  induction changes generalizing folder with
  | nil => exact hstart
  | cons change changes ih => exact ih h.2 (hstep _ _ hstart h.1)

/-- Files that no step is about keep what they hold. -/
theorem after_ne {folder : Folder} {changes : List Change} {other : String}
    (h : ∀ change ∈ changes, other ≠ change.name) : folder.after changes other = folder other := by
  induction changes generalizing folder with
  | nil => rfl
  | cons change changes ih =>
      rw [after_cons, ih fun c hc => h c (by simp [hc]),
        Change.apply_ne folder change (h change (by simp))]

theorem after_congr {folder folder' : Folder} {file : String} (h : folder file = folder' file)
    (changes : List Change) : folder.after changes file = folder'.after changes file := by
  induction changes generalizing folder folder' with
  | nil => exact h
  | cons change changes ih => exact ih (Change.apply_congr h change)

/-- Steps can be taken wherever the files that they are about hold the same. -/
theorem Fits.congr {folder folder' : Folder} {changes : List Change}
    (h : ∀ change ∈ changes, folder change.name = folder' change.name)
    (hfits : folder.Fits changes) : folder'.Fits changes := by
  induction changes generalizing folder folder' with
  | nil => trivial
  | cons change changes ih =>
      refine ⟨hfits.1.congr (h change List.mem_cons_self), ih (fun later hlater => ?_) hfits.2⟩
      exact Change.apply_congr (h later (List.mem_cons_of_mem _ hlater)) change

end Folder

namespace FileSystem

/-- The number of the file that `name` stands for at `place`. -/
def number (files : FileSystem) (place : Location) (name : String) : FileId :=
  match files.node? (place ++ [name]) with
  | some (.file id) => id
  | _ => 0

/-- What the files at `place` hold. -/
def folder (files : FileSystem) (place : Location) : Folder := fun name =>
  match files.node? (place ++ [name]) with
  | some (.file id) => some (files.content id)
  | _ => none

/-- `root` leads to the directory `place`, in which each of the names stands for a plain file or is
free, and no file has two names. -/
structure Houses (files : FileSystem) (names : String → Prop) (root : Path) (place : Location) :
    Prop where
  /-- `root` names a directory and not a link to one. -/
  named : files.resolve .name root = .ok place
  directory : files.node? place = some .directory
  /-- Relative paths start in a directory. -/
  home : files.node? files.home = some .directory
  entry : ∀ name, names name → IsEntryName name
  /-- No path to one of the files is too long. -/
  fits : ∀ name, names name → root.text.utf8ByteSize + name.utf8ByteSize < maxPathBytes
  takes : ∀ name, names name → files.TakesFile place name
  numbered : ∀ name id, files.node? (place ++ [name]) = some (.file id) → id < files.contents.size
  apart : ∀ a b id, files.node? (place ++ [a]) = some (.file id) →
    files.node? (place ++ [b]) = some (.file id) → a = b

variable {files : FileSystem} {names : String → Prop} {root : Path} {place : Location}
  {name : String}

theorem folder_eq_some {content : Bytes} :
    files.folder place name = some content ↔
      files.node? (place ++ [name]) = some (.file (files.number place name)) ∧
        files.content (files.number place name) = content := by
  unfold folder number
  split
  · next id h => simp [h]
  · next h =>
    constructor
    · simp
    · rintro ⟨hnode, -⟩
      exact absurd hnode (h _)

theorem node?_of_folder {content : Bytes} (h : files.folder place name = some content) :
    files.node? (place ++ [name]) = some (.file (files.number place name)) :=
  (folder_eq_some.1 h).1

theorem content_of_folder {content : Bytes} (h : files.folder place name = some content) :
    files.content (files.number place name) = content :=
  (folder_eq_some.1 h).2

theorem Houses.node?_of_folder_none (h : files.Houses names root place) (hname : names name)
    (hfree : files.folder place name = none) : files.node? (place ++ [name]) = none := by
  rcases h.takes name hname with hnode | ⟨id, hnode⟩
  · exact hnode
  · simp [folder, hnode] at hfree

/-- A directory houses also fewer names. -/
theorem Houses.mono {names' : String → Prop} (h : files.Houses names root place)
    (hnames : ∀ name, names' name → names name) : files.Houses names' root place :=
  ⟨h.named, h.directory, h.home, fun name hname => h.entry name (hnames name hname),
    fun name hname => h.fits name (hnames name hname),
    fun name hname => h.takes name (hnames name hname), h.numbered, h.apart⟩

/-- The root is the directory also for who follows links. -/
theorem Houses.target (h : files.Houses names root place) :
    files.resolve .target root = .ok place :=
  resolve_of_sameWays (.inr rfl) (SameWays.refl files) h.named h.directory

/-- A path to one of the names leads there, whatever it is wanted for. -/
theorem Houses.resolve_join (h : files.Houses names root place) (hname : names name)
    (wanted : Wanted) : files.resolve wanted (root.join name) = .ok (place ++ [name]) :=
  FileSystem.resolve_join h.named h.directory (h.entry name hname) (h.fits name hname)
    (h.takes name hname).ne_link

/-! ### Outside of a directory -/

/-- The file systems differ in nothing but files that lie right in the directory `place`. -/
structure SameOutside (place : Location) (files files' : FileSystem) : Prop
    extends SameWays files files' where
  node : ∀ p, (∀ name, p ≠ place ++ [name]) → files'.node? p = files.node? p

theorem SameOutside.refl (place : Location) (files : FileSystem) : SameOutside place files files :=
  ⟨.refl files, fun _ _ => rfl⟩

theorem SameOutside.trans {files' files'' : FileSystem} (h : SameOutside place files files')
    (h' : SameOutside place files' files'') : SameOutside place files files'' :=
  ⟨h.toSameWays.trans h'.toSameWays, fun p hp => (h'.node p hp).trans (h.node p hp)⟩

theorem node?_makeDirectory (files : FileSystem) (place p : Location) :
    ((Effect.makeDirectory place).apply files).node? p =
      if p = place then some .directory else files.node? p := by
  by_cases hp : p = place
  · simp [node?, Effect.apply, hp, Effect.lookup_assign_same]
  · simp [node?, Effect.apply, hp, Effect.lookup_assign_ne]

/-- A directory that is made where nothing was is in nobody's way. -/
theorem sameWays_makeDirectory (hnone : files.node? place = none) :
    SameWays files ((Effect.makeDirectory place).apply files) := by
  refine ⟨rfl, fun p hp => ?_, fun p target hp => ?_⟩
  · rw [node?_makeDirectory]
    split
    · rfl
    · exact hp
  · rw [node?_makeDirectory, if_neg, hp]
    rintro rfl
    simp [hnone] at hp

end FileSystem

/-! ### Changes as effects -/

namespace Change

open FileSystem

/-- The effect that brings the step about in the directory `place`. -/
def effect (files : FileSystem) (place : Location) : Change → Effect
  | make name => .makeFile (place ++ [name])
  | write name start data => .write (files.number place name) start data
  | setLength name length => .setLength (files.number place name) length
  | remove name => .removeName (place ++ [name])

variable {files : FileSystem} {names : String → Prop} {root : Path} {place : Location}
  {change : Change}

/-- What a change does to names. -/
theorem node?_effect (files : FileSystem) (place : Location) (change : Change) (p : Location) :
    ((change.effect files place).apply files).node? p =
      if p = place ++ [change.name] then
        match change with
        | make _ => some (.file files.contents.size)
        | remove _ => none
        | _ => files.node? p
      else files.node? p := by
  cases change with
  | make name =>
      by_cases hp : p = place ++ [name]
      · simp [effect, node?, Effect.apply, hp, Change.name, Effect.lookup_assign_same]
      · simp [effect, node?, Effect.apply, Change.name, hp, Effect.lookup_assign_ne]
  | write name start data => simp [effect, node?]
  | setLength name length => simp [effect, node?]
  | remove name =>
      by_cases hp : p = place ++ [name]
      · simp [effect, node?, hp, Change.name, Effect.lookup_removeName]
      · simp [effect, node?, hp, Change.name, Effect.lookup_removeName]

theorem node?_effect_ne {other : String} (h : other ≠ change.name) :
    ((change.effect files place).apply files).node? (place ++ [other]) =
      files.node? (place ++ [other]) := by
  rw [node?_effect, if_neg (by simpa using h)]

theorem number_effect_ne {other : String} (h : other ≠ change.name) :
    ((change.effect files place).apply files).number place other = files.number place other := by
  unfold number
  rw [node?_effect_ne h]

/-- Files keep their numbers when they are written or cut. -/
theorem number_effect {other : String}
    (h : ∀ name, change ≠ make name ∧ change ≠ remove name) :
    ((change.effect files place).apply files).number place other = files.number place other := by
  unfold number
  rw [node?_effect]
  cases change with
  | make name => exact absurd rfl (h name).1
  | remove name => exact absurd rfl (h name).2
  | write name start data => simp
  | setLength name length => simp

theorem size_contents_effect (files : FileSystem) (place : Location) (change : Change) :
    files.contents.size ≤ ((change.effect files place).apply files).contents.size := by
  rw [Effect.size_contents_apply]
  cases change <;> simp [effect]

theorem content_effect_ne (h : files.Houses names root place)
    (hfits : change.Fits (files.folder place)) {other : String} {id : FileId}
    (hother : other ≠ change.name) (hnode : files.node? (place ++ [other]) = some (.file id)) :
    ((change.effect files place).apply files).content id = files.content id := by
  have hne : ∀ name content, name ≠ other → files.folder place name = some content →
      id ≠ files.number place name := by
    intro name content hname hcontent hid
    have := node?_of_folder hcontent
    rw [← hid] at this
    exact hname (h.apart _ _ _ this hnode)
  cases change with
  | make name => exact Effect.content_makeFile _ _ _
  | write name start data =>
      obtain ⟨content, hcontent⟩ := Option.ne_none_iff_exists'.1 hfits
      exact Effect.content_write_ne _ _ _ (hne name content (Ne.symm hother) hcontent)
  | setLength name length =>
      obtain ⟨content, hcontent⟩ := Option.ne_none_iff_exists'.1 hfits
      exact Effect.content_setLength_ne _ _ (hne name content (Ne.symm hother) hcontent)
  | remove name => rfl

/-- A change that fits does to the folder what it says. -/
theorem folder_effect (h : files.Houses names root place)
    (hfits : change.Fits (files.folder place)) :
    ((change.effect files place).apply files).folder place = change.apply (files.folder place) := by
  funext other
  by_cases hother : other = change.name
  · subst hother
    cases change with
    | make name =>
        have hnode := node?_effect files place (make name) (place ++ [name])
        simp only [Change.name, if_true] at hnode
        simp only [folder, hnode, apply, Change.name, Function.update_self]
        rw [effect, Effect.content_makeFile]
        simp [FileSystem.content]
    | write name start data =>
        obtain ⟨content, hcontent⟩ := Option.ne_none_iff_exists'.1 hfits
        have hsize := h.numbered _ _ (node?_of_folder hcontent)
        have hnode := node?_of_folder hcontent
        rw [apply, Change.name, Function.update_self, hcontent, Option.map_some, folder_eq_some,
          number_effect (by simp), node?_effect]
        refine ⟨by simpa using hnode, ?_⟩
        rw [effect, Effect.content_write_same start data hsize, content_of_folder hcontent]
    | setLength name length =>
        obtain ⟨content, hcontent⟩ := Option.ne_none_iff_exists'.1 hfits
        have hsize := h.numbered _ _ (node?_of_folder hcontent)
        have hnode := node?_of_folder hcontent
        rw [apply, Change.name, Function.update_self, hcontent, Option.map_some, folder_eq_some,
          number_effect (by simp), node?_effect]
        refine ⟨by simpa using hnode, ?_⟩
        rw [effect, Effect.content_setLength_same length hsize, content_of_folder hcontent]
    | remove name => simp [folder, node?_effect, apply, Change.name]
  · rw [apply_ne _ _ hother]
    unfold folder
    rw [node?_effect_ne hother]
    split
    · next id hnode => rw [content_effect_ne h hfits hother hnode]
    · rfl

theorem sameWays_effect (hfile : files.TakesFile place change.name) :
    SameWays files ((change.effect files place).apply files) := by
  refine ⟨Effect.home_apply _ _, fun p hp => ?_, fun p target hp => ?_⟩
  · rw [node?_effect, if_neg, hp]
    rintro rfl
    rcases hfile with hnode | ⟨id, hnode⟩ <;> simp [hnode] at hp
  · rw [node?_effect, if_neg, hp]
    rintro rfl
    rcases hfile with hnode | ⟨id, hnode⟩ <;> simp [hnode] at hp

theorem takesFile_effect {other : String} (hfile : files.TakesFile place change.name)
    (h : files.TakesFile place other) :
    ((change.effect files place).apply files).TakesFile place other := by
  by_cases hother : other = change.name
  · subst hother
    unfold TakesFile
    rw [node?_effect, if_pos rfl]
    cases change with
    | make name => exact .inr ⟨_, rfl⟩
    | write name start data => exact hfile
    | setLength name length => exact hfile
    | remove name => exact .inl rfl
  · unfold TakesFile
    rwa [node?_effect_ne hother]

theorem houses_effect (h : files.Houses names root place) (hname : names change.name)
    (hfits : change.Fits (files.folder place)) :
    ((change.effect files place).apply files).Houses names root place := by
  have hways := sameWays_effect (h.takes _ hname)
  -- a new file gets a number that none had before
  have hnode : ∀ other id,
      ((change.effect files place).apply files).node? (place ++ [other]) = some (.file id) →
      files.node? (place ++ [other]) = some (.file id) ∨
        change = make other ∧ id = files.contents.size := by
    intro other id hid
    rw [node?_effect] at hid
    by_cases hother : other = change.name
    · subst hother
      cases change with
      | make name =>
          simp only [Change.name, if_true, Option.some.injEq, Node.file.injEq] at hid
          exact .inr ⟨rfl, hid.symm⟩
      | write name start data => exact .inl (by simpa using hid)
      | setLength name length => exact .inl (by simpa using hid)
      | remove name => simp [Change.name] at hid
    · rw [if_neg (by simpa using hother)] at hid
      exact .inl hid
  have hsize := size_contents_effect files place change
  refine ⟨resolve_of_sameWays (.inl rfl) hways h.named h.directory,
    hways.directory _ h.directory, ?_, h.entry, h.fits,
    fun name hn => takesFile_effect (h.takes _ hname) (h.takes name hn), ?_, ?_⟩
  · rw [Effect.home_apply]
    exact hways.directory _ h.home
  · intro other id hid
    rcases hnode other id hid with hold | ⟨rfl, rfl⟩
    · exact Nat.lt_of_lt_of_le (h.numbered other id hold) hsize
    · rw [Effect.size_contents_apply]
      simp [effect]
  · intro a b id ha hb
    rcases hnode a id ha with ha | ⟨hca, rfl⟩
    · rcases hnode b id hb with hb | ⟨hcb, rfl⟩
      · exact h.apart a b id ha hb
      · exact absurd (h.numbered a _ ha) (Nat.lt_irrefl _)
    · rcases hnode b _ hb with hb | ⟨hcb, -⟩
      · exact absurd (h.numbered b _ hb) (Nat.lt_irrefl _)
      · rw [hca] at hcb
        simpa using hcb

end Change

/-! ### A disk after changes -/

namespace Disk

open FileSystem

/-- The disk after one step of change in the directory `place`. -/
def change (place : Location) (disk : Disk) (change : Change) : Disk :=
  { disk with
    files := (change.effect disk.files place).apply disk.files
    journal := change.effect disk.files place :: disk.journal }

/-- The disk after a list of steps, the first one first. -/
def after (place : Location) (disk : Disk) (changes : List Change) : Disk :=
  changes.foldl (Disk.change place) disk

variable {disk : Disk} {names : String → Prop} {root : Path} {place : Location} {name : String}
  {changes : List Change}

@[simp] theorem after_nil (place : Location) (disk : Disk) : disk.after place [] = disk := rfl

@[simp] theorem after_cons (place : Location) (disk : Disk) (change : Change)
    (changes : List Change) :
    disk.after place (change :: changes) = (disk.change place change).after place changes := rfl

theorem after_append (place : Location) (disk : Disk) (first second : List Change) :
    disk.after place (first ++ second) = (disk.after place first).after place second := by
  simp [after]

@[simp] theorem locked_after (place : Location) (disk : Disk) (changes : List Change) :
    (disk.after place changes).locked = disk.locked := by
  induction changes generalizing disk with
  | nil => rfl
  | cons change changes ih => rw [after_cons, ih]; rfl

/-- Changes that fit, one after the other, keep a directory housing the names and do to the folder
what they say. -/
theorem houses_and_folder_after (h : disk.files.Houses names root place)
    (hnames : ∀ change ∈ changes, names change.name)
    (hfits : (disk.files.folder place).Fits changes) :
    (disk.after place changes).files.Houses names root place ∧
      (disk.after place changes).files.folder place =
        (disk.files.folder place).after changes := by
  induction changes generalizing disk with
  | nil => exact ⟨h, rfl⟩
  | cons change changes ih =>
      have hstep := Change.houses_effect h (hnames change (by simp)) hfits.1
      have hfolder := Change.folder_effect h hfits.1
      have hrest := @ih (disk.change place change) hstep
        (fun c hc => hnames c (by simp [hc])) (by
          rw [Disk.change, hfolder]
          exact hfits.2)
      refine ⟨hrest.1, hrest.2.trans ?_⟩
      rw [Disk.change, hfolder]
      rfl

theorem houses_after (h : disk.files.Houses names root place)
    (hnames : ∀ change ∈ changes, names change.name)
    (hfits : (disk.files.folder place).Fits changes) :
    (disk.after place changes).files.Houses names root place :=
  (houses_and_folder_after h hnames hfits).1

theorem folder_after (h : disk.files.Houses names root place)
    (hnames : ∀ change ∈ changes, names change.name)
    (hfits : (disk.files.folder place).Fits changes) :
    (disk.after place changes).files.folder place = (disk.files.folder place).after changes :=
  (houses_and_folder_after h hnames hfits).2

theorem node?_after_ne {other : String} (h : ∀ change ∈ changes, other ≠ change.name) :
    (disk.after place changes).files.node? (place ++ [other]) =
      disk.files.node? (place ++ [other]) := by
  induction changes generalizing disk with
  | nil => rfl
  | cons change changes ih =>
      rw [after_cons, ih fun c hc => h c (by simp [hc])]
      exact Change.node?_effect_ne (h change (by simp))

theorem sameOutside_after (h : ∀ change ∈ changes, disk.files.TakesFile place change.name) :
    disk.files.SameOutside place (disk.after place changes).files := by
  induction changes generalizing disk with
  | nil => exact .refl place disk.files
  | cons change changes ih =>
      have hfile := h change List.mem_cons_self
      have hstep : disk.files.SameOutside place (disk.change place change).files :=
        ⟨Change.sameWays_effect hfile, fun p hp =>
          (Change.node?_effect disk.files place change p).trans (if_neg (hp _))⟩
      exact hstep.trans (ih fun later hlater =>
        Change.takesFile_effect hfile (h later (List.mem_cons_of_mem _ hlater)))

/-- A file that is neither made nor removed keeps its number. -/
theorem number_after {other : String}
    (h : ∀ change ∈ changes, change ≠ .make other ∧ change ≠ .remove other) :
    (disk.after place changes).files.number place other = disk.files.number place other := by
  induction changes generalizing disk with
  | nil => rfl
  | cons change changes ih =>
      rw [after_cons, ih fun c hc => h c (by simp [hc])]
      by_cases hother : other = change.name
      · subst hother
        obtain ⟨hmake, hremove⟩ := h change (by simp)
        refine Change.number_effect fun name => ⟨?_, ?_⟩
        · rintro rfl
          exact hmake rfl
        · rintro rfl
          exact hremove rfl
      · exact Change.number_effect_ne hother

end Disk

end BlockArchive
