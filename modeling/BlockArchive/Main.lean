import BlockArchive.CommandLine.Run

/-! # The program

The command line on a real disk.  What is around the named directory is read into a file system, the
command runs on that, and the effects it performed are then done to the real disk, in their order.

* **What is read:** the directories on the way, whether the last name is a link, and the files of
  the directory it leads to.
* **The lock** of the directory is taken on the real lock file, if there is one, for the whole run;
  when somebody else holds it, the command finds it held. -/

namespace BlockArchive.Program

/-- The names of a path's real place, links and dots aside. -/
def locationOf (home : Location) (path : Path) : Location :=
  path.words.foldl
    (fun place word =>
      if word = "" ∨ word = "." then place
      else if word = ".." then place.dropLast
      else place ++ [word])
    (if path.isAbsolute then [] else home)

/-- A location as the text of an absolute path. -/
def textOf (place : Location) : String :=
  "/" ++ "/".intercalate place

/-- The real kind of what is at a location. -/
def kindAt (place : Location) : IO (Option IO.FS.FileType) := do
  let entry : IO.FS.DirEntry := ⟨"/", textOf place⟩
  match ← entry.path.symlinkMetadata.toBaseIO with
  | .ok status => return some status.type
  | .error _ => return none

/-- Adds a file with its content. -/
def addFile (files : FileSystem) (place : Location) (data : Bytes) : FileSystem :=
  Effect.applyAll files [.makeFile place, .write files.contents.size 0 data]

/-- Adds the files of a directory. -/
def addFiles (files : FileSystem) (place : Location) : IO FileSystem := do
  let entry : IO.FS.DirEntry := ⟨"/", textOf place⟩
  let mut files := files
  for found in ← entry.path.readDir do
    let inside := place ++ [found.fileName]
    match ← kindAt inside with
    | some .dir => files := Effect.apply files (.makeDirectory inside)
    | some .file =>
        files := addFile files inside (← IO.FS.readBinFile (textOf inside)).toList
    | _ => pure ()
  return files

/-- Adds what is on the way to a location and, if a directory is there, its files. -/
def addWay (files : FileSystem) (place : Location) : IO FileSystem := do
  let mut files := files
  for length in List.range place.length do
    let stop := place.take (length + 1)
    match ← kindAt stop with
    | some .dir => files := Effect.apply files (.makeDirectory stop)
    | some .file => files := addFile files stop []
    | some .symlink =>
        let target := Path.ofText (← IO.FS.realPath (textOf stop)).toString
        files := Effect.apply files (.makeLink stop target)
    | _ => pure ()
  match ← kindAt place with
  | some .dir => addFiles files place
  | _ => return files

/-- Reads what is around a path. -/
def load (path : Path) : IO FileSystem := do
  let home := locationOf [] (Path.ofText (← IO.currentDir).toString)
  let place := locationOf home path
  let mut files ← addWay { FileSystem.empty with home } place
  let real ← (IO.FS.realPath (textOf place)).toBaseIO
  match real with
  | .ok target =>
      let there := locationOf [] (Path.ofText target.toString)
      if there ≠ place then files ← addWay files there
  | .error _ => pure ()
  return files

/-- The names that stand for a file. -/
def namesOf (files : FileSystem) (id : FileId) : List Location :=
  (files.names.filter (·.2 = .file id)).map Prod.fst

/-- Writes the content of a file to its real names. -/
def store (files : FileSystem) (id : FileId) : IO Unit := do
  for place in namesOf files id do
    IO.FS.writeBinFile (textOf place) ⟨(files.content id).toArray⟩

/-- Does one effect to the real disk; `files` is the file system after it. -/
def performOn (files : FileSystem) : Effect → IO Unit
  | .makeDirectory place => IO.FS.createDir (textOf place)
  | .makeFile place => IO.FS.writeBinFile (textOf place) ByteArray.empty
  | .makeLink _ _ => pure ()
  | .write id _ _ => store files id
  | .setLength id _ => store files id
  | .removeName place => IO.FS.removeFile (textOf place)

/-- Does effects to the real disk, in their order; `files` is the file system before them. -/
def performAll (files : FileSystem) : List Effect → IO Unit
  | [] => pure ()
  | effect :: rest => do
      let files := effect.apply files
      performOn files effect
      performAll files rest

/-- The lock file of a path, by its number and its real name. -/
def lockFile? (files : FileSystem) (path : Path) : Option (FileId × Location) :=
  match files.resolve .target (path.join DirectoryLock.fileName) with
  | .error _ => none
  | .ok place =>
    match files.node? place with
    | some (.file id) => some (id, place)
    | _ => none

/-- Whether a request opens the archive, and so needs its lock. -/
def opensArchive : CommandLine.Request → Bool
  | .verify _ | .version => false
  | _ => true

/-- Runs the program on files that were read, and does its effects to the real disk. -/
def runOn (arguments : List String) (files : FileSystem) (locked : List FileId) :
    IO CommandLine.Outcome := do
  let (outcome, disk) := CommandLine.run arguments { Disk.ofFiles files with locked }
  performAll files disk.effects
  return outcome

/-- Runs a request about a path on the real disk. -/
def runAt (arguments : List String) (request : CommandLine.Request) (path : Path) :
    IO CommandLine.Outcome := do
  let files ← load path
  match if opensArchive request then lockFile? files path else none with
  | none => runOn arguments files []
  | some (id, place) =>
      let handle ← IO.FS.Handle.mk (textOf place) .append
      if ← handle.tryLock then
        let outcome ← runOn arguments files []
        handle.unlock
        return outcome
      else runOn arguments files [id]

/-- Runs the program on the real disk. -/
def runReal (arguments : List String) : IO CommandLine.Outcome := do
  match CommandLine.Arguments.parse arguments with
  | .ok ⟨some path, request⟩ => runAt arguments request path
  | _ => return (CommandLine.run arguments (Disk.ofFiles .empty)).1

end BlockArchive.Program

/-- Prints what the command prints, then why it failed, and ends with its exit code. -/
def main (arguments : List String) : IO UInt32 := do
  let outcome ← BlockArchive.Program.runReal arguments
  IO.print outcome.stdout
  match outcome.failure with
  | some e => IO.eprintln ("Error: " ++ e.debug)
  | none => pure ()
  return outcome.exitCode.toUInt32
