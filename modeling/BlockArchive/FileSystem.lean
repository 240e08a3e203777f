import BlockArchive.Bytes
import BlockArchive.Error

/-! # The file system

The part of a file system that a storage engine relies on, as a value.

* **Names and contents are apart.** A name stands for a directory, a link or a file, and a file is
  a number under which its content is kept.  So a file outlives its name: who holds the number
  reads and writes on, after the name is gone or stands for something else.
* **Places.** A `Location` is a resolved path: the names to go down from the root, with no links,
  blanks or dots left in it.  `resolve` finds the location that a path leads to.
* **Links.** `resolve` follows a link wherever it has to go through it; whether it follows one in
  last place depends on what the path is wanted for, `Wanted`.  Forty links on one way are the
  limit.
* **Limits.** A name has at most 255 bytes and a path at most 4095, and neither holds the null
  character.  A path that breaks the first rule is refused where the name is looked for; the other
  two are checked before anything is looked for.
* **Effects.** All that a program can do to a disk is one of six small steps, `Effect`.
  `Effect.apply` says what each does, so that a run is a list of them, and a run that was cut
  short is the beginning of that list. -/

namespace BlockArchive

/-- The names to go down from the root. -/
abbrev Location := List String

/-- The number under which the content of a file is kept. -/
abbrev FileId := Nat

/-- What a name stands for. -/
inductive Node where
  | directory
  | file (id : FileId)
  | link (target : Path)
deriving DecidableEq, Repr

/-- What is stored: names, contents, and the directory where relative paths start. -/
structure FileSystem where
  /-- What each name stands for; the root needs no name. -/
  names : List (Location × Node)
  /-- The content of every file ever made, by its number. -/
  contents : Array Bytes
  /-- Where relative paths start. -/
  home : Location
deriving DecidableEq, Repr

namespace FileSystem

/-- A file system with nothing in it. -/
def empty : FileSystem := ⟨[], #[], []⟩

/-! ### Looking up -/

/-- What is at `place`. -/
def node? (files : FileSystem) (place : Location) : Option Node :=
  if place = [] then some .directory else files.names.lookup place

/-- The content of a file; one that was never made has none. -/
def content (files : FileSystem) (id : FileId) : Bytes :=
  files.contents.getD id []

/-- What a path is wanted for. -/
inductive Wanted where
  /-- Its last name itself; a link there is not followed. -/
  | name
  /-- What its last name stands for; a link there is followed. -/
  | target
  /-- As `target`, but a file is to be made where there is none.  The last name is then the name
  of a file, so no slash may come after it. -/
  | newFile
deriving DecidableEq, Repr

/-- The most bytes in one name. -/
def maxNameBytes : Nat := 255

/-- Goes down `words` from `place`.  Where a link has to be followed, `through` goes on from the
directory of the link, or from the root, along the link's target and the remaining words. -/
def walkWith (files : FileSystem) (wanted : Wanted)
    (through : Location → List String → Except IoError Location) :
    Location → List String → Except IoError Location
  | place, [] => .ok place
  | place, word :: rest =>
      if word = "" ∨ word = "." then walkWith files wanted through place rest
      else if word = ".." then walkWith files wanted through place.dropLast rest
      else if wanted = .newFile ∧ rest ≠ [] ∧ rest.all (· = "") then .error .isADirectory
      else if maxNameBytes < word.utf8ByteSize then .error .nameTooLong
      else
        match files.node? (place ++ [word]) with
        | some .directory => walkWith files wanted through (place ++ [word]) rest
        | some (.file _) => if rest = [] then .ok (place ++ [word]) else .error .notADirectory
        | some (.link target) =>
            if rest = [] ∧ wanted = .name then .ok (place ++ [word])
            else through (if target.isAbsolute then [] else place) (target.words ++ rest)
        | none => if rest.all (· = "") then .ok (place ++ [word]) else .error .notFound

/-- Goes down a list of words, following at most the given number of links. -/
def walk (files : FileSystem) (wanted : Wanted) :
    Nat → Location → List String → Except IoError Location
  | 0 => walkWith files wanted fun _ _ => .error .tooManyLinks
  | hops + 1 => walkWith files wanted (walk files wanted hops)

/-- The most links followed on one way. -/
def maxHops : Nat := 40

/-- The most bytes in a path. -/
def maxPathBytes : Nat := 4095

/-- Refuses a path that holds the null character or is too long, whatever is stored. -/
def checkPath (path : Path) : Except IoError Unit :=
  if path.text.toList.contains '\x00' then .error .nullInPath
  else if maxPathBytes < path.text.utf8ByteSize then .error .nameTooLong
  else .ok ()

/-- The location that `path` leads to.  Its directory exists; the last name need not.  It is kept
from unfolding by itself, as it would unfold into all the links that a way may have. -/
@[irreducible]
def resolve (files : FileSystem) (wanted : Wanted) (path : Path) : Except IoError Location :=
  match checkPath path with
  | .error e => .error e
  | .ok _ => walk files wanted maxHops (if path.isAbsolute then [] else files.home) path.words

/-- What `path` stands for, links followed. -/
def status (files : FileSystem) (path : Path) : Except IoError Node :=
  match files.resolve .target path with
  | .error e => .error e
  | .ok place =>
    match files.node? place with
    | some node => .ok node
    | none => .error .notFound

/-- What `path` stands for, a link in last place standing for itself. -/
def linkStatus (files : FileSystem) (path : Path) : Except IoError Node :=
  match files.resolve .name path with
  | .error e => .error e
  | .ok place =>
    match files.node? place with
    | some node => .ok node
    | none => .error .notFound

/-- Whether `path` leads to a directory. -/
def isDirectory (files : FileSystem) (path : Path) : Bool :=
  match files.status path with
  | .ok .directory => true
  | _ => false

/-- Whether `path` leads to anything. -/
def exists? (files : FileSystem) (path : Path) : Bool :=
  match files.status path with
  | .ok _ => true
  | .error _ => false

/-- The places of all that is below a directory. -/
def below (files : FileSystem) (place : Location) : List Location :=
  (files.names.map Prod.fst).filter fun inside => place.isPrefixOf inside && inside != place

/-- The length reported for a directory. -/
def directoryLength : Nat := 4096

/-- The number of bytes that `path` leads to. -/
def length (files : FileSystem) (path : Path) : Except IoError Nat :=
  match files.status path with
  | .ok (.file id) => .ok (files.content id).length
  | .ok _ => .ok directoryLength
  | .error e => .error e

/-- The whole content of the file that `path` leads to. -/
def read (files : FileSystem) (path : Path) : Except IoError Bytes :=
  match files.status path with
  | .ok (.file id) => .ok (files.content id)
  | .ok _ => .error .isADirectory
  | .error e => .error e

end FileSystem

/-! ### Effects -/

/-- One step of change. -/
inductive Effect where
  /-- A directory appears. -/
  | makeDirectory (place : Location)
  /-- An empty file appears, under the next free number. -/
  | makeFile (place : Location)
  /-- A link appears. -/
  | makeLink (place : Location) (target : Path)
  /-- Bytes are written over a file's content. -/
  | write (id : FileId) (start : Nat) (data : Bytes)
  /-- A file is cut or filled up to a length. -/
  | setLength (id : FileId) (length : Nat)
  /-- A name disappears. -/
  | removeName (place : Location)
deriving DecidableEq, Repr

namespace Effect

/-- The names after `place` came to stand for `node`. -/
def assign (names : List (Location × Node)) (place : Location) (node : Node) :
    List (Location × Node) :=
  (place, node) :: names.filter (·.1 ≠ place)

/-- The file system after the step. -/
def apply (files : FileSystem) : Effect → FileSystem
  | makeDirectory place => { files with names := assign files.names place .directory }
  | makeFile place =>
      { files with
        names := assign files.names place (.file files.contents.size)
        contents := files.contents.push [] }
  | makeLink place target => { files with names := assign files.names place (.link target) }
  | write id start data =>
      { files with
        contents := files.contents.setIfInBounds id ((files.content id).overwrite start data) }
  | setLength id length =>
      { files with
        contents := files.contents.setIfInBounds id ((files.content id).resize length) }
  | removeName place => { files with names := files.names.filter (·.1 ≠ place) }

/-- The file system after a list of steps, the first one first. -/
def applyAll (files : FileSystem) (effects : List Effect) : FileSystem :=
  effects.foldl apply files

/-- A run is a run of its beginning, gone on with. -/
theorem applyAll_append (files : FileSystem) (first second : List Effect) :
    applyAll files (first ++ second) = applyAll (applyAll files first) second := by
  simp [applyAll]

/-! ### What a step does to names -/

/-- Dropping the pairs of some keys leaves what is found under the others. -/
theorem lookup_filter_key (keep : Location → Bool) (place : Location)
    (names : List (Location × Node)) :
    (names.filter fun name => keep name.1).lookup place =
      if keep place then names.lookup place else none := by
  induction names with
  | nil => simp
  | cons name names ih =>
      obtain ⟨key, node⟩ := name
      by_cases hk : place = key
      · subst hk
        cases h : keep place with
        | true => simp [h]
        | false => simpa [h] using ih
      · have hb : (place == key) = false := beq_eq_false_iff_ne.2 hk
        cases h : keep key <;> simp [h, List.lookup_cons, hb, ih]

theorem lookup_assign_same (names : List (Location × Node)) (place : Location) (node : Node) :
    (assign names place node).lookup place = some node := by
  simp [assign]

theorem lookup_assign_ne (names : List (Location × Node)) {place other : Location} (node : Node)
    (h : other ≠ place) : (assign names place node).lookup other = names.lookup other := by
  have hb : (other == place) = false := beq_eq_false_iff_ne.2 h
  rw [assign, List.lookup_cons, hb]
  exact (lookup_filter_key (fun key => decide (key ≠ place)) other names).trans (by simp [h])

theorem lookup_removeName (files : FileSystem) (place other : Location) :
    (apply files (.removeName place)).names.lookup other =
      if other = place then none else files.names.lookup other :=
  (lookup_filter_key (fun key => decide (key ≠ place)) other files.names).trans (by simp)

@[simp] theorem names_write (files : FileSystem) (id start : Nat) (data : Bytes) :
    (apply files (.write id start data)).names = files.names := rfl

@[simp] theorem names_setLength (files : FileSystem) (id length : Nat) :
    (apply files (.setLength id length)).names = files.names := rfl

@[simp] theorem home_apply (files : FileSystem) (effect : Effect) :
    (apply files effect).home = files.home := by
  cases effect <;> rfl

/-! ### What a step does to contents -/

theorem content_write_same {files : FileSystem} {id : FileId} (start : Nat) (data : Bytes)
    (h : id < files.contents.size) :
    (apply files (.write id start data)).content id = (files.content id).overwrite start data := by
  simp [apply, FileSystem.content, h]

theorem content_write_ne (files : FileSystem) {id other : FileId} (start : Nat) (data : Bytes)
    (h : other ≠ id) :
    (apply files (.write id start data)).content other = files.content other := by
  simp [apply, FileSystem.content, Array.getElem?_setIfInBounds_ne h.symm]

theorem content_setLength_same {files : FileSystem} {id : FileId} (length : Nat)
    (h : id < files.contents.size) :
    (apply files (.setLength id length)).content id = (files.content id).resize length := by
  simp [apply, FileSystem.content, h]

theorem content_setLength_ne (files : FileSystem) {id other : FileId} (length : Nat)
    (h : other ≠ id) :
    (apply files (.setLength id length)).content other = files.content other := by
  simp [apply, FileSystem.content, Array.getElem?_setIfInBounds_ne h.symm]

/-- Making a file changes no content: its own is empty, as that of a file never made. -/
theorem content_makeFile (files : FileSystem) (place : Location) (id : FileId) :
    (apply files (.makeFile place)).content id = files.content id := by
  by_cases h : id = files.contents.size <;> simp [apply, FileSystem.content, Array.getElem?_push, h]

/-- Only making a file changes how many files were ever made. -/
theorem size_contents_apply (files : FileSystem) (effect : Effect) :
    (apply files effect).contents.size =
      match effect with
      | .makeFile _ => files.contents.size + 1
      | _ => files.contents.size := by
  cases effect <;> simp [apply]

end Effect

end BlockArchive
