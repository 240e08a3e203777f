import BlockArchive.Column
import BlockArchive.DirectoryLock
import BlockArchive.Table.Appending
import BlockArchive.Table.Cutting
import BlockArchive.Table.Opening
import BlockArchive.Table.Reading

/-! # The archive

An archive stores one row of five columns per block, in a directory that it locks while it is open.

* **Evening out.** A row is written column by column, so a crash can leave the tables at different
  lengths.  Opening, and every append that failed, cuts them all back to the shortest
  (`evenOut`); nothing else keeps the columns together.
* **Numbers.** Rows are appended by their number from zero on; blocks are read by their number from
  one on.
* **Closing** gives the lock back, and all later requests are refused, but for a second closing.

An operation on an archive is an `Action (Archive × Disk)`, as for a table. -/

namespace BlockArchive

/-- How an archive is opened. -/
structure Settings where
  /-- The number of bytes past which a segment is not to grow. -/
  cap : Nat := 2000000000
  /-- Whether a missing directory is made. -/
  create : Bool := true
deriving DecidableEq, Repr, Inhabited

/-- An open archive, or one that was closed. -/
structure Archive where
  /-- Its directory. -/
  path : Path
  /-- The number of blocks stored. -/
  blocks : Nat
  /-- The tables of the columns. -/
  tables : ByColumn Table
  /-- The lock, as long as it is held. -/
  lock : Option DirectoryLock
  /-- Whether it was closed. -/
  closed : Bool
deriving DecidableEq, Repr

/-- What a table of an archive holds. -/
structure TableStats where
  name : String
  items : Nat
  headId : Nat
  headBytes : Nat
  size : Nat
deriving DecidableEq, Repr

namespace Archive

/-- An action on the table of a column. -/
def onTable {α : Type} (c : Column) (action : Action (Table × Disk) α) :
    Action (Archive × Disk) α :=
  Attempt.onFirst (fun archive => archive.tables.get c)
    (fun table archive => { archive with tables := archive.tables.set c table }) action

/-- Refuses if the archive was closed. -/
def ensureOpen : Action (Archive × Disk) Unit := do
  if (← Attempt.current).closed then throw .closed

/-- The number of items in the shortest table. -/
def shortest (tables : ByColumn Table) : Nat :=
  (tables.toList.map Table.items).min?.getD 0

/-- Cuts every table back to `items` items, in the order of the columns. -/
def cutTables (items : Nat) : Action (Archive × Disk) Unit :=
  Column.all.forM fun c => onTable c (Table.truncate items)

/-- Cuts every table back to the shortest one. -/
def evenOut : Action (Archive × Disk) Unit := do
  let items := shortest (← Attempt.current).tables
  cutTables items
  Attempt.update fun archive => { archive with blocks := items }

/-- Closes the table of a column; answers what went wrong, if anything did. -/
def closeTable (c : Column) : Action (Archive × Disk) (Option Error) :=
  tryCatch (do onTable c Table.close; return none) fun e => return some e

/-- Closes all tables and gives the lock back; a second time nothing happens.  What went wrong is
reported at the end. -/
def close : Action (Archive × Disk) Unit := do
  let archive ← Attempt.current
  if archive.closed then return ()
  Attempt.update fun archive => { archive with closed := true }
  let failures ← Column.all.filterMapM closeTable
  match archive.lock with
  | some lock =>
      Attempt.update fun archive => { archive with lock := none }
      Attempt.onSecond lock.release
  | none => pure ()
  match Error.ofList? failures with
  | some e => throw e
  | none => return ()

/-- Lets go of an archive without closing it, which gives its lock back all the same. -/
def discard (archive : Archive) : Action Disk Unit :=
  match archive.lock with
  | some lock => lock.release
  | none => return ()

/-- Makes sure that an archive can stand at `root`: not at a symbolic link, and nowhere new unless
the settings allow it. -/
def checkRoot (root : Path) (settings : Settings) : Action Disk Unit := do
  match (← get).files.linkStatus root with
  | .ok (.link _) => throw (.linkedDirectory root)
  | .ok _ => return ()
  | .error .notFound => if settings.create then return () else throw (.missingDirectory root)
  | .error e => throw (.io e)

/-- Opens the archive at `root`, makes it if it is missing, and repairs what a crash left. -/
def openAt (root : Path) (settings : Settings) : Action Disk Archive := do
  checkRoot root settings
  Disk.makeDirectories root
  let lock ← DirectoryLock.acquire root
  tryCatch
    (do
      let tables ← ByColumn.ofFnM fun c => Table.openIn root c.name settings.cap
      let uneven : Archive :=
        { path := root, blocks := 0, tables, lock := some lock, closed := false }
      let (evened, archive) ← Attempt.split uneven evenOut
      Attempt.ofExcept evened
      return archive)
    fun e => do
      lock.release
      throw e

/-- Opens an archive, works on it, and lets go of it. -/
def within {α : Type} (root : Path) (settings : Settings) (work : Action (Archive × Disk) α) :
    Action Disk α := do
  let (answer, archive) ← Attempt.split (← openAt root settings) work
  archive.discard
  Attempt.ofExcept answer

/-- The number of blocks stored. -/
def count : Action (Archive × Disk) Nat := do
  ensureOpen
  return (← Attempt.current).blocks

/-- The largest number that fits in 64 bits. -/
def maxNumber : Nat := UInt64.size - 1

/-- The item that holds block `number`.  There is no block zero, and its item is the last number
there is, which no table holds. -/
def itemOf (number : Nat) : Nat :=
  if number = 0 then maxNumber else number - 1

/-- One column of block `number`. -/
def get (c : Column) (number : Nat) : Action (Archive × Disk) Bytes := do
  ensureOpen
  onTable c (Table.retrieve (itemOf number))

/-- One column of block `number`, the column being given by name. -/
def getNamed (name : String) (number : Nat) : Action (Archive × Disk) Bytes := do
  get (← Attempt.ofExcept (Column.ofName name)) number

/-- Appends a row to the tables, in the order of the columns. -/
def appendColumns (number : Nat) (row : Row) : Action (Archive × Disk) Unit :=
  Column.all.forM fun c => onTable c (Table.append number (row.get c))

/-- Appends row `number`, given by its columns in the order in which callers have them, the receipts
before the transactions.  When a column fails, the columns already written are dropped
again, and the failure is reported whether or not that worked. -/
def appendBlock (number : Nat) (hash body receipts transactions interchain : Bytes) :
    Action (Archive × Disk) Unit := do
  ensureOpen
  let blocks := (← Attempt.current).blocks
  if blocks ≠ number then throw (.sequence blocks number)
  tryCatch
    (appendColumns number
      { hashes := hash, bodies := body, transactions, receipts, interchain })
    fun e => do
      tryCatch evenOut fun _ => return ()
      throw e
  Attempt.update fun archive => { archive with blocks := archive.blocks + 1 }

/-- Appends `row` as row `number`. -/
def append (number : Nat) (row : Row) : Action (Archive × Disk) Unit :=
  appendBlock number row.hashes row.bodies row.receipts row.transactions row.interchain

/-- Drops every block above number `blocks`. -/
def truncate (blocks : Nat) : Action (Archive × Disk) Unit := do
  ensureOpen
  if (← Attempt.current).blocks ≤ blocks then return ()
  cutTables blocks
  Attempt.update fun archive => { archive with blocks }

/-- Makes sure that all that was written is on the disk. -/
def sync : Action (Archive × Disk) Unit := do
  ensureOpen
  Column.all.forM fun c => onTable c Table.sync

/-- What the table of a column holds. -/
def statsOf (c : Column) : Action (Archive × Disk) TableStats := do
  let size ← onTable c Table.size
  let table := (← Attempt.current).tables.get c
  return {
    name := table.name, items := table.items, headId := table.headId,
    headBytes := table.headBytes, size }

/-- What the tables hold, in the order of the columns. -/
def stats : Action (Archive × Disk) (List TableStats) := do
  ensureOpen
  Column.all.mapM statsOf

/-- Whether block `number` is stored with exactly the data of `row`.  The columns are read in
order, up to the first that differs. -/
def holds (row : Row) (number : Nat) : Action (Archive × Disk) Bool :=
  go Column.all
where
  /-- Compares the given columns. -/
  go : List Column → Action (Archive × Disk) Bool
    | [] => return true
    | c :: cs => do
        if (← get c number) = row.get c then go cs else return false

/-- The form with field names. -/
def debug (archive : Archive) : String :=
  "BlockFile \x7b path: " ++ Text.quoted archive.path.text ++ ", blocks: "
    ++ toString archive.blocks ++ ", closed: " ++ toString archive.closed ++ ", .. \x7d"

end Archive

end BlockArchive
