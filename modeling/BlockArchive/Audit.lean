import BlockArchive.Column
import BlockArchive.IndexEntry
import BlockArchive.FileSystem
import BlockArchive.Table.FileName
import BlockArchive.Text.Quoted

/-! # Auditing a directory

An audit reads the files of an archive as they are.  It takes no lock and repairs nothing, so that
it can look at what a crash left before the next opening changes it.

* **A table** is read from its index alone: which items and segments there should be, and how long
  each segment has to be.  The head has to end exactly where the last entry says; an earlier segment
  has to reach as far as the entries that name it.
* **A directory** is audited table by table; besides, all tables should hold equally many items.
* **Findings** are causes with numbers; `Finding.message` words them.  What cannot be read at all is
  an error and no finding. -/

namespace BlockArchive

/-- Something amiss with one table. -/
inductive Finding where
  | indexMissing
  | tornIndex (length : Nat)
  | noSentinel
  | stepsBack (entry : Nat) (before after : Nat)
  | offsetPrecedes (entry : Nat) (offset before : Nat)
  | segmentMissing (id : Nat)
  | headLength (id length expected : Nat)
  | segmentShort (id length needed : Nat)
deriving DecidableEq, Repr

/-- The wording of a finding. -/
def Finding.message : Finding → String
  | indexMissing => "index file missing"
  | tornIndex length =>
      "index holds " ++ toString length ++ " bytes, not a multiple of "
        ++ toString IndexEntry.width
  | noSentinel => "index has no sentinel entry"
  | stepsBack entry before after =>
      "entry " ++ toString entry ++ " steps back from segment " ++ toString before
        ++ " to " ++ toString after
  | offsetPrecedes entry offset before =>
      "entry " ++ toString entry ++ " offset " ++ toString offset ++ " precedes "
        ++ toString before
  | segmentMissing id => "segment " ++ toString id ++ " missing"
  | headLength id length expected =>
      "head segment " ++ toString id ++ " holds " ++ toString length
        ++ " bytes, index expects " ++ toString expected
  | segmentShort id length needed =>
      "segment " ++ toString id ++ " holds " ++ toString length
        ++ " bytes, index expects at least " ++ toString needed

/-- What the audit of a table says. -/
structure TableReport where
  name : String
  /-- The number of items the index stands for, pruned ones included. -/
  items : Nat
  tailId : Nat
  headId : Nat
  /-- The bytes of all segments from the tail to the head. -/
  dataBytes : Nat
  findings : List Finding
deriving DecidableEq, Repr

/-- Whether nothing is amiss. -/
def TableReport.isOk (report : TableReport) : Bool :=
  report.findings.isEmpty

namespace Audit

/-- The whole entries of an index content. -/
def entries : Bytes → List IndexEntry
  | a :: b :: c :: d :: e :: f :: rest => IndexEntry.decode [a, b, c, d, e, f] :: entries rest
  | _ => []

/-- Where the entries from number `n` on are out of order, `before` being the entry in front.  The
offset of entry zero is no position, so entry one is not held against it. -/
def orderFindings (n : Nat) (before : IndexEntry) : List IndexEntry → List Finding
  | [] => []
  | entry :: rest =>
      (if entry.segment < before.segment then
        [.stepsBack n before.segment.toNat entry.segment.toNat]
      else if entry.segment = before.segment ∧ 1 < n ∧ entry.offset < before.offset then
        [.offsetPrecedes n entry.offset.toNat before.offset.toNat]
      else []) ++ orderFindings (n + 1) entry rest

/-- The bytes that segment `id` needs for the items that these entries bound. -/
def neededLength (bounds : List IndexEntry) (id : Nat) : Nat :=
  bounds.foldl
    (fun needed entry =>
      if entry.segment.toNat = id then max needed entry.offset.toNat else needed) 0

/-- The length of a segment that is there, and what is amiss with it. -/
def segmentFindings (bounds : List IndexEntry) (last : IndexEntry) (id length : Nat) :
    List Finding :=
  if id = last.segment.toNat then
    if length = last.offset.toNat then [] else [.headLength id length last.offset.toNat]
  else if length < neededLength bounds id then
    [.segmentShort id length (neededLength bounds id)]
  else []

/-- The length of segment `id`, and what is amiss with it; a missing one has none. -/
def segment (files : FileSystem) (root : Path) (name : String) (bounds : List IndexEntry)
    (last : IndexEntry) (id : Nat) : Except Error (Nat × List Finding) :=
  match files.length (root.join (Table.segmentFileName name id)) with
  | .ok length => .ok (length, segmentFindings bounds last id length)
  | .error .notFound => .ok (0, [.segmentMissing id])
  | .error e => .error (.io e)

/-- The total length of the given segments, and what is amiss with them. -/
def segments (files : FileSystem) (root : Path) (name : String) (bounds : List IndexEntry)
    (last : IndexEntry) : List Nat → Except Error (Nat × List Finding)
  | [] => .ok (0, [])
  | id :: ids =>
      match segment files root name bounds last id with
      | .error e => .error e
      | .ok (length, found) =>
        match segments files root name bounds last ids with
        | .error e => .error e
        | .ok (lengths, others) => .ok (length + lengths, found ++ others)

/-- Audits a table whose index has this content. -/
def indexed (files : FileSystem) (root : Path) (name : String) (data : Bytes) :
    Except Error TableReport :=
  let torn : List Finding :=
    if data.length % IndexEntry.width = 0 then [] else [.tornIndex data.length]
  match entries data with
  | [] => .ok ⟨name, 0, 0, 0, 0, torn ++ [.noSentinel]⟩
  | first :: bounds =>
      let last := bounds.getLastD first
      let tailId := first.segment.toNat
      let headId := last.segment.toNat
      match segments files root name bounds last (List.range' tailId (headId + 1 - tailId)) with
      | .error e => .error e
      | .ok (dataBytes, found) => .ok {
          name, tailId, headId, dataBytes
          items := first.offset.toNat + bounds.length
          findings := torn ++ orderFindings 1 first bounds ++ found }

/-- Audits the table `name` in `root`. -/
def table (files : FileSystem) (root : Path) (name : String) : Except Error TableReport :=
  match files.read (root.join (Table.indexFileName name)) with
  | .ok data => indexed files root name data
  | .error .notFound => .ok ⟨name, 0, 0, 0, 0, [.indexMissing]⟩
  | .error e => .error (.io e)

end Audit

/-- What the audit of a directory says. -/
structure ArchiveReport where
  path : Path
  /-- The reports on the tables, in the order of the columns. -/
  tables : List TableReport
deriving DecidableEq, Repr

namespace ArchiveReport

/-- Whether all numbers are equal. -/
def allEqual : List Nat → Bool
  | a :: b :: rest => a = b && allEqual (b :: rest)
  | _ => true

/-- Whether the tables hold equally many items. -/
def isEven (report : ArchiveReport) : Bool :=
  allEqual (report.tables.map TableReport.items)

/-- What is amiss between the tables. -/
def findings (report : ArchiveReport) : List String :=
  if report.isEven then []
  else ["tables disagree on row count: "
    ++ ", ".intercalate (report.tables.map fun t => t.name ++ "=" ++ toString t.items)]

/-- Whether nothing is amiss, in any table or between them. -/
def isOk (report : ArchiveReport) : Bool :=
  report.isEven && report.tables.all TableReport.isOk

/-- The number of findings, in the tables and between them. -/
def findingCount (report : ArchiveReport) : Nat :=
  (report.tables.map fun t => t.findings.length).foldl (· + ·) report.findings.length

end ArchiveReport

/-- Audits several tables, one after the other. -/
def Audit.tables (files : FileSystem) (root : Path) :
    List String → Except Error (List TableReport)
  | [] => .ok []
  | name :: names =>
    match Audit.table files root name with
    | .error e => .error e
    | .ok report =>
      match Audit.tables files root names with
      | .error e => .error e
      | .ok reports => .ok (report :: reports)

/-- Audits the archive at `root`. -/
def Audit.archive (files : FileSystem) (root : Path) : Except Error ArchiveReport :=
  match Audit.tables files root (Column.all.map Column.name) with
  | .ok tables => .ok ⟨root, tables⟩
  | .error e => .error e

/-- A list of texts with field names around it. -/
def debugList (items : List String) : String :=
  "[" ++ ", ".intercalate items ++ "]"

/-- The form with field names. -/
def TableReport.debug (report : TableReport) : String :=
  "TableReport \x7b name: " ++ Text.quoted report.name ++ ", items: " ++ toString report.items
    ++ ", tail_id: " ++ toString report.tailId ++ ", head_id: " ++ toString report.headId
    ++ ", data_bytes: " ++ toString report.dataBytes ++ ", findings: "
    ++ debugList (report.findings.map fun f => Text.quoted f.message) ++ " \x7d"

/-- The form with field names. -/
def ArchiveReport.debug (report : ArchiveReport) : String :=
  "VerifyReport \x7b path: " ++ Text.quoted report.path.text ++ ", tables: "
    ++ debugList (report.tables.map TableReport.debug) ++ ", findings: "
    ++ debugList (report.findings.map Text.quoted) ++ " \x7d"

end BlockArchive
