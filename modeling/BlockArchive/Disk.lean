import BlockArchive.Attempt
import BlockArchive.FileSystem

/-! # Working on a disk

* **`Disk`** is a file system together with what the machine knows about it while it runs: which
  files are locked, and which effects were performed, the latest first.
* **Operations** are actions on a disk.  One that fails leaves what it has done so far, as a failing
  file operation does.
* **`Handle`** is an open file.  It holds the number of the file, not its name.
* Every change of the file system goes through `perform`, so the journal tells the whole run:
  `effects_perform` and `files_perform`.

The operations below are those of an operating system: open, read, write, cut, unlink, make a
directory with its parents, lock. -/

namespace BlockArchive

/-- A file system at work. -/
structure Disk where
  /-- What is stored. -/
  files : FileSystem
  /-- The files that somebody holds locked. -/
  locked : List FileId
  /-- The effects performed so far, the latest first. -/
  journal : List Effect
deriving DecidableEq, Repr

/-- An open file. -/
inductive Handle where
  | file (id : FileId) (writable : Bool)
  | directory
deriving DecidableEq, Repr

/-- How a file is opened. -/
inductive OpenMode where
  /-- To read and write; made if it is missing. -/
  | update
  /-- To read and write; made if it is missing, emptied if it is there. -/
  | fresh
  /-- To write; it has to be there. -/
  | existing
  /-- To read; it has to be there. -/
  | readOnly
deriving DecidableEq, Repr

/-- Whether the mode makes a missing file. -/
def OpenMode.creates : OpenMode → Bool
  | update | fresh => true
  | existing | readOnly => false

/-- What a path that is opened this way is wanted for. -/
def OpenMode.wanted (mode : OpenMode) : FileSystem.Wanted :=
  if mode.creates then .newFile else .target

/-- Whether a handle opened this way can be written to. -/
def OpenMode.isWritable : OpenMode → Bool
  | readOnly => false
  | _ => true

namespace Disk

/-- A disk with these files, on which nothing has happened yet. -/
def ofFiles (files : FileSystem) : Disk := ⟨files, [], []⟩

/-- The effects performed so far, in their order. -/
def effects (disk : Disk) : List Effect := disk.journal.reverse

/-- Performs one effect. -/
def perform (effect : Effect) : Action Disk Unit :=
  modify fun disk =>
    { disk with files := effect.apply disk.files, journal := effect :: disk.journal }

theorem outcome_perform (effect : Effect) (disk : Disk) :
    (perform effect).outcome disk =
      (.ok (), { disk with files := effect.apply disk.files, journal := effect :: disk.journal }) :=
  rfl

/-- The journal grows by the effect performed. -/
theorem effects_perform (effect : Effect) (disk : Disk) :
    ((perform effect).outcome disk).2.effects = disk.effects ++ [effect] := by
  simp [outcome_perform, effects]

/-- A disk that came about from some files through its effects does so after one more. -/
theorem files_perform {files : FileSystem} {disk : Disk} (effect : Effect)
    (h : disk.files = Effect.applyAll files disk.effects) :
    ((perform effect).outcome disk).2.files =
      Effect.applyAll files ((perform effect).outcome disk).2.effects := by
  rw [effects_perform, Effect.applyAll_append, ← h]
  rfl

/-- Asks the file system. -/
def query {α : Type} (question : FileSystem → Except IoError α) : Action Disk α := do
  Action.ofIo (question (← get).files)

/-! ### Names -/

/-- Opens the file that `path` leads to. -/
def openFile (path : Path) (mode : OpenMode) : Action Disk Handle := do
  let files := (← get).files
  let place ← Action.ofIo (files.resolve mode.wanted path)
  match files.node? place with
  | some (.file id) =>
      if mode = .fresh then perform (.setLength id 0)
      return .file id mode.isWritable
  | some _ =>
      if mode = .readOnly then return .directory
      else throw (.io .isADirectory)
  | none =>
      if mode.creates = false then throw (.io .notFound)
      perform (.makeFile place)
      return .file files.contents.size true

/-- Makes one directory.  A link in last place is in the way, also before a slash. -/
def makeDirectory (path : Path) : Action Disk Unit := do
  let files := (← get).files
  let place ← Action.ofIo (files.resolve .name path.bare)
  match files.node? place with
  | some _ => throw (.io .alreadyExists)
  | none => perform (.makeDirectory place)

/-- Makes a directory, unless it is there; where the one above it is missing, `above` comes
first. -/
def makeDirectoryAfter (above : Action Disk Unit) (path : Path) : Action Disk Unit :=
  let unlessThere (e : Error) : Action Disk Unit := do
    if (← get).files.isDirectory path then return () else throw e
  tryCatch (makeDirectory path) fun e =>
    if e = .io .notFound then do
      above
      tryCatch (makeDirectory path) unlessThere
    else unlessThere e

/-- Makes the directory whose words are given backwards and all above it that are missing.  Words
that lead nowhere are passed over. -/
def makeDirectoriesUp : List String → Action Disk Unit
  | [] => return ()
  | word :: up =>
      if Path.isBlank word then makeDirectoriesUp up
      else makeDirectoryAfter (makeDirectoriesUp up) ⟨(word :: up).reverse⟩

/-- Makes a directory and all above it that are missing.  A path that ends in a dot is taken as it
is written: it leads nowhere before its last name is made, and only what is above that name is. -/
def makeDirectories (path : Path) : Action Disk Unit :=
  makeDirectoryAfter (makeDirectoriesUp path.parent.words.reverse) path

/-- Removes the name of a file or a link. -/
def removeFile (path : Path) : Action Disk Unit := do
  let files := (← get).files
  let place ← Action.ofIo (files.resolve .name path)
  match files.node? place with
  | some .directory => throw (.io .isADirectory)
  | some _ => perform (.removeName place)
  | none => throw (.io .notFound)

/-- Removes the name of an empty directory.  A link in last place is in the way, also before a
slash, and a dot there is no name. -/
def removeDirectory (path : Path) : Action Disk Unit := do
  let files := (← get).files
  let place ← Action.ofIo (files.resolve .name path.bare)
  match files.node? place with
  | some .directory =>
      if path.bare.words.getLast? = some "." then throw (.io .invalidArgument)
      if path.bare.words.getLast? = some ".." ∨ files.below place ≠ [] then
        throw (.io .directoryNotEmpty)
      perform (.removeName place)
  | some _ => throw (.io .notADirectory)
  | none => throw (.io .notFound)

/-- Removes a directory with all that is below it.  A link that stands in its place is removed
itself; a file there is refused. -/
def removeDirectoryTree (path : Path) : Action Disk Unit := do
  let files := (← get).files
  let place ← Action.ofIo (files.resolve .name path)
  match files.node? place with
  | some .directory =>
      (files.below place).forM fun inside => perform (.removeName inside)
      removeDirectory path
  | some (.link _) => perform (.removeName place)
  | some (.file _) => throw (.io .notADirectory)
  | none => throw (.io .notFound)

/-- Removes a file, a link, or a directory with all that is below it. -/
def removeAny (path : Path) : Action Disk Unit := do
  match ← query fun files => files.linkStatus path with
  | .directory => removeDirectoryTree path
  | _ => removeFile path

/-- Makes a link to `target`, which has to be a path, though it need not lead anywhere. -/
def makeLink (path target : Path) : Action Disk Unit := do
  let files := (← get).files
  Action.ofIo (FileSystem.checkPath target)
  if target.text = "" then throw (.io .notFound)
  let place ← Action.ofIo (files.resolve .name path.bare)
  match files.node? place with
  | some _ => throw (.io .alreadyExists)
  | none => if path.endsInSlash then throw (.io .notFound) else perform (.makeLink place target)

end Disk

/-! ### Open files -/

namespace Handle

/-- The number of bytes. -/
def length : Handle → Action Disk Nat
  | file id _ => do return ((← get).files.content id).length
  | directory => return FileSystem.directoryLength

/-- Exactly `len` bytes from byte `start` on. -/
def read (handle : Handle) (start len : Nat) : Action Disk Bytes := do
  match handle with
  | file id _ =>
      match ((← get).files.content id).slice? start len with
      | some data => return data
      | none => throw (.io .endOfFile)
  | directory => if len = 0 then return [] else throw (.io .isADirectory)

/-- Writes bytes from byte `start` on; writing none asks nothing of the handle. -/
def write (handle : Handle) (start : Nat) (data : Bytes) : Action Disk Unit :=
  if data.isEmpty then return ()
  else match handle with
    | file id true => Disk.perform (.write id start data)
    | _ => throw (.io .badDescriptor)

/-- Cuts the file or fills it up to a length. -/
def setLength (handle : Handle) (length : Nat) : Action Disk Unit :=
  match handle with
  | file id true => Disk.perform (.setLength id length)
  | _ => throw (.io .badDescriptor)

/-- Locks the file for oneself; answers whether nobody else held it. -/
def tryLock (handle : Handle) : Action Disk Bool := do
  match handle with
  | file id _ =>
      if id ∈ (← get).locked then return false
      modify fun disk => { disk with locked := id :: disk.locked }
      return true
  | directory => return true

/-- Gives a lock back. -/
def unlock : Handle → Action Disk Unit
  | file id _ => modify fun disk => { disk with locked := disk.locked.filter (· ≠ id) }
  | directory => return ()

end Handle

end BlockArchive
