import BlockArchive.Archive
import BlockArchive.CommandLine.CommandError
import BlockArchive.Text.Hex

/-! # Maintenance of an archive

What the commands do to an archive that somebody made before.

* **Nothing new.** A maintenance command opens only a directory that has the index of the first
  column, and makes no missing directory.
* **Opening repairs.** The archive is opened like any other, so the shape a crash left is repaired
  first.
* **The lock is given back** whatever the outcome. -/

namespace BlockArchive.CommandLine

/-- A computation on a disk that fails with the errors of a command. -/
abbrev Command (α : Type) : Type := Attempt CommandError Disk α

/-- An action as a part of a command. -/
def Command.ofAction {α : Type} (action : Action Disk α) : Command α :=
  action.adapt CommandError.refused

/-- Opens an archive that is there. -/
def openExisting (path : Path) : Command Archive := do
  let files := (← get).files
  if files.isDirectory path ∧ ¬ files.exists? (Table.indexPath path Column.hashes.name) then
    throw (.noArchive path)
  Command.ofAction (Archive.openAt path { create := false })

/-- Opens an archive that is there, works on it and closes it. -/
def withExisting {α : Type} (path : Path) (work : Action (Archive × Disk) α) : Command α := do
  let archive ← openExisting path
  let (answer, archive) ← Attempt.split archive work
  let (closed, _) ← Attempt.split archive Archive.close
  Command.ofAction (Attempt.ofExcept closed)
  Command.ofAction (Attempt.ofExcept answer)

/-- What an archive holds. -/
structure Inspection where
  path : Path
  blocks : Nat
  /-- The bytes of all indexes and segments. -/
  totalSize : Nat
  /-- The tables in the order of the columns. -/
  tables : List TableStats
deriving DecidableEq, Repr

/-- Looks at what the archive at `path` holds. -/
def inspect (path : Path) : Command Inspection :=
  withExisting path do
    let tables ← Archive.stats
    let blocks ← Archive.count
    return {
      path := (← Attempt.current).path, blocks, tables
      totalSize := (tables.map TableStats.size).foldl (· + ·) 0 }

/-- One column of a block, as hexadecimal digits. -/
def fetch (path : Path) (table : String) (number : Nat) : Command String := do
  return Text.hex (← withExisting path (Archive.getNamed table number))

/-- Drops every block above number `blocks`; answers the number of blocks before and after. -/
def rollBack (path : Path) (blocks : Nat) : Command (Nat × Nat) :=
  withExisting path do
    let before ← Archive.count
    Archive.truncate blocks
    Archive.sync
    return (before, ← Archive.count)

end BlockArchive.CommandLine
