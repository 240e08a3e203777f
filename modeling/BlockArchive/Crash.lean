import BlockArchive.Archive

/-! # Crashes

The shapes in which a crash in the middle of an append can leave the files of a table, and the
small changes on disk that produce them.

* **One table.** The index got ahead of the data, the data got ahead of the index, an entry was cut
  short, or the head lost its content.
* **One row.** Only the first few columns got the next row.

The changes go past the tables: they write to the files of an archive that nobody has open. -/

namespace BlockArchive

/-- A shape that a crash leaves. -/
inductive Crash where
  /-- The index entry reached the disk, the bytes of the item did not. -/
  | dataLost
  /-- The bytes of the item reached the disk, the index entry did not. -/
  | entryLost
  /-- The index entry was cut short. -/
  | entryTorn
  /-- The head lost its content. -/
  | headEmptied
  /-- Only the first `columns` tables got the next row. -/
  | partialRow (columns : Nat)
deriving DecidableEq, Repr

namespace Crash

/-- Every shape, with one to four columns of a partial row. -/
def all : List Crash :=
  [dataLost, entryLost, entryTorn, headEmptied]
    ++ (List.range' 1 (Column.all.length - 1)).map partialRow

/-- Whether recovery has to keep every complete block. -/
def keepsAllBlocks : Crash → Bool
  | headEmptied => false
  | _ => true

/-- The form with field names. -/
def debug : Crash → String
  | dataLost => "DataLost"
  | entryLost => "IndexEntryLost"
  | entryTorn => "TornIndexEntry"
  | headEmptied => "HeadSegmentEmptied"
  | partialRow columns => "PartialBlock \x7b columns: " ++ toString columns ++ " \x7d"

/-- What happens to which table; a partial row concerns no single one. -/
def description (crash : Crash) (c : Column) : String :=
  match crash with
  | partialRow _ => crash.debug
  | _ => crash.debug ++ " on " ++ c.name

/-! ### Changes on disk -/

/-- The last whole entry of an index content. -/
def lastEntry? (data : Bytes) : Option IndexEntry :=
  let count := data.length / IndexEntry.width
  if count = 0 then none
  else (data.slice? (IndexEntry.position (count - 1)) IndexEntry.width).map IndexEntry.decode

/-- The last whole entry of the index of the table `name` in `root`. -/
def lastEntry (root : Path) (name : String) : Action Disk IndexEntry := do
  match lastEntry? (← Disk.query fun files => files.read (Table.indexPath root name)) with
  | some entry => return entry
  | none => throw (.io .emptyIndex)

/-- Writes bytes behind the end of a file that is there. -/
def appendTo (path : Path) (data : Bytes) : Action Disk Unit := do
  let file ← Disk.openFile path .existing
  file.write (← file.length) data

/-- Adds an index entry that reaches `extra` bytes past the last one. -/
def addDanglingEntry (root : Path) (name : String) (extra : Nat) : Action Disk Unit := do
  let last ← lastEntry root name
  let entry : IndexEntry := { last with offset := last.offset + .ofNat extra }
  appendTo (Table.indexPath root name) entry.encode

/-- Adds bytes to an index. -/
def addTornBytes (root : Path) (name : String) (data : Bytes) : Action Disk Unit :=
  appendTo (Table.indexPath root name) data

/-- Adds bytes that no entry covers to a segment. -/
def growSegment (root : Path) (name : String) (id : Nat) (data : Bytes) : Action Disk Unit :=
  appendTo (Table.segmentPath root name id) data

/-- Cuts a segment or fills it up to a length. -/
def setSegmentLength (root : Path) (name : String) (id length : Nat) : Action Disk Unit := do
  let file ← Disk.openFile (Table.segmentPath root name id) .existing
  file.setLength length

/-- Appends the next sample to the table of one column. -/
def appendSample (root : Path) (cap : Nat) (c : Column) : Action Disk Unit := do
  let table ← Table.openIn root c.name cap
  let (appended, _) ← Attempt.split table do
    Table.append table.items ((Row.sample table.items).get c)
    Table.close
  Attempt.ofExcept appended

/-- Appends the next sample row to the first `columns` tables only. -/
def addPartialRow (root : Path) (cap columns : Nat) : Action Disk Unit :=
  (Column.all.take columns).forM (appendSample root cap)

/-- Leaves the archive at `root` in this shape.  It must not be open. -/
def apply (crash : Crash) (root : Path) (c : Column) (settings : Settings) : Action Disk Unit := do
  match crash with
  | dataLost => addDanglingEntry root c.name 16
  | entryLost =>
      let last ← lastEntry root c.name
      growSegment root c.name last.segment.toNat (List.replicate 24 0xee)
  | entryTorn => addTornBytes root c.name [0, 0, 0]
  | headEmptied =>
      let last ← lastEntry root c.name
      setSegmentLength root c.name last.segment.toNat 0
  | partialRow columns => addPartialRow root settings.cap columns

end Crash

end BlockArchive
