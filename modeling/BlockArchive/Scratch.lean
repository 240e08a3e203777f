import BlockArchive.Archive

/-! # Scratch archives and tables

An archive or a table in a directory of its own, for trying things out.  The directory goes when
the scratch archive goes.

* **Complaints.** Whoever makes a scratch archive expects it to work; where it does not, the
  `Complaint` says what was expected and what went wrong instead.
* **Payloads** are rows of a given size for measuring; `Payload.lengths` says how a size is shared
  out among the columns. -/

namespace BlockArchive

/-- An expectation that was not met. -/
structure Complaint where
  /-- What did not work. -/
  expectation : String
  /-- Why. -/
  cause : Error
deriving DecidableEq, Repr

/-- The text for people. -/
def Complaint.message (complaint : Complaint) : String :=
  complaint.expectation ++ ": " ++ complaint.cause.debug

/-- An action that is expected to succeed. -/
def Attempt.expecting {σ α : Type} (expectation : String) (action : Action σ α) :
    Attempt Complaint σ α :=
  action.adapt fun cause => { expectation, cause }

/-- An archive in a directory of its own. -/
structure ScratchArchive where
  /-- The directory. -/
  dir : Path
  /-- How the archive is opened. -/
  settings : Settings
  archive : Archive
deriving DecidableEq, Repr

namespace ScratchArchive

/-- Opens an archive in the new directory `dir`. -/
def create (dir : Path) (settings : Settings) : Attempt Complaint Disk ScratchArchive := do
  let archive ← Attempt.expecting "Failed to open block file" do
    Disk.makeDirectories dir
    Archive.openAt dir settings
  return { dir, settings, archive }

/-- Appends rows from number zero on; when one fails, the archive is let go. -/
def fill (scratch : ScratchArchive) (expectation : String) (rows : List Row) :
    Attempt Complaint Disk ScratchArchive := do
  let (filled, archive) ← Attempt.split scratch.archive
    (rows.zipIdx.forM fun (row, n) => Archive.append n row)
  match filled with
  | .ok _ => return { scratch with archive }
  | .error cause =>
      Attempt.expecting expectation archive.discard
      throw { expectation, cause }

/-- A scratch archive with `blocks` sample rows. -/
def populated (dir : Path) (cap blocks : Nat) : Attempt Complaint Disk ScratchArchive := do
  let scratch ← create dir { cap }
  scratch.fill "Failed to append block" ((List.range blocks).map Row.sample)

/-- A scratch archive with `blocks` rows, all equal to `row`. -/
def measured (dir : Path) (cap blocks : Nat) (row : Row) :
    Attempt Complaint Disk ScratchArchive := do
  let scratch ← create dir { cap }
  scratch.fill "append_block failed" (List.replicate blocks row)

/-- Closes the archive. -/
def close (scratch : ScratchArchive) : Attempt Complaint Disk Unit := do
  let (closed, _) ← Attempt.split scratch.archive Archive.close
  Attempt.expecting "Failed to close block file" (Attempt.ofExcept closed)

/-- Closes the archive and opens it again. -/
def reopen (scratch : ScratchArchive) : Attempt Complaint Disk ScratchArchive := do
  scratch.close
  let archive ← Attempt.expecting "Failed to reopen block file"
    (Archive.openAt scratch.dir scratch.settings)
  return { scratch with archive }

/-- Opens the archive that is in `dir`. -/
def ofDirectory (dir : Path) (settings : Settings) : Action Disk ScratchArchive := do
  return { dir, settings, archive := ← Archive.openAt dir settings }

end ScratchArchive

/-- A table in a directory of its own. -/
structure ScratchTable where
  /-- The directory. -/
  dir : Path
  table : Table
deriving DecidableEq, Repr

namespace ScratchTable

/-- Opens the table `name` in the new directory `dir`. -/
def create (dir : Path) (name : String) (cap : Nat) : Attempt Complaint Disk ScratchTable := do
  let table ← Attempt.expecting "Failed to open table" (Table.openIn dir name cap)
  return { dir, table }

/-- Closes the table and opens it again. -/
def reopen (scratch : ScratchTable) : Action Disk ScratchTable := do
  let (closed, table) ← Attempt.split scratch.table Table.close
  Attempt.ofExcept closed
  return { scratch with table := ← Table.openIn scratch.dir table.name table.cap }

end ScratchTable

namespace Payload

/-- How many bytes each column gets in a row whose body and transactions take up about `size`. -/
def lengths (size : Nat) : ByColumn Nat where
  hashes := 32
  bodies := size / 4
  transactions := size / 2
  receipts := size / 4
  interchain := 64

end Payload

end BlockArchive
