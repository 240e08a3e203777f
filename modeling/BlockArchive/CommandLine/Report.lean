import BlockArchive.Audit
import BlockArchive.CommandLine.Maintenance
import BlockArchive.Text.ByteSize
import BlockArchive.Text.Json

/-! # Reports

What the reporting commands print: an inspection or an audit, as text or as JSON. -/

namespace BlockArchive.CommandLine

/-- The forms of a report. -/
inductive Format where
  | text
  | json
deriving DecidableEq, Repr

/-- The format called `name`. -/
def Format.ofName : String → Except CommandError Format
  | "text" => .ok .text
  | "json" => .ok .json
  | name => .error (.unknownFormat name)

/-- `text` filled up with blanks at its end to `width` characters. -/
def alignLeft (width : Nat) (text : String) : String :=
  text ++ String.ofList (List.replicate (width - text.length) ' ')

/-- `text` with blanks before it up to `width` characters. -/
def alignRight (width : Nat) (text : String) : String :=
  String.ofList (List.replicate (width - text.length) ' ') ++ text

/-- Lines of text, each with its end. -/
def lines (texts : List String) : String :=
  String.join (texts.map (· ++ "\n"))

namespace Inspection

/-- One row of the listing of tables. -/
def listingRow (name items head headBytes size : String) : String :=
  alignLeft 14 name ++ " " ++ alignRight 10 items ++ " " ++ alignRight 6 head ++ " "
    ++ alignRight 12 headBytes ++ " " ++ alignRight 12 size

/-- The inspection as text. -/
def text (inspection : Inspection) : String :=
  lines <|
    ["Hubstore Block File Inspection",
      "==============================",
      "",
      "Path:       " ++ inspection.path.text,
      "Blocks:     " ++ toString inspection.blocks,
      "Total size: " ++ Text.byteSize inspection.totalSize,
      "",
      listingRow "Table" "Items" "Head" "Head bytes" "Size"]
    ++ inspection.tables.map fun t =>
      listingRow t.name (toString t.items) (toString t.headId) (toString t.headBytes)
        (Text.byteSize t.size)

/-- One table as JSON. -/
def tableJson (stats : TableStats) : Text.Json :=
  .object [("name", .text stats.name), ("items", .number stats.items),
    ("head_id", .number stats.headId), ("head_bytes", .number stats.headBytes),
    ("size", .number stats.size)]

/-- The inspection as JSON. -/
def json (inspection : Inspection) : Text.Json :=
  .object [("path", .text inspection.path.text), ("blocks", .number inspection.blocks),
    ("total_size", .number inspection.totalSize),
    ("tables", .list (inspection.tables.map tableJson))]

/-- The inspection in a format. -/
def render (inspection : Inspection) : Format → String
  | .text => inspection.text
  | .json => inspection.json.pretty ++ "\n"

end Inspection

end BlockArchive.CommandLine

namespace BlockArchive

namespace TableReport

/-- The lines that concern one table. -/
def textLines (report : TableReport) : List String :=
  ("[" ++ (if report.isOk then "ok" else "FAILED") ++ "] " ++ report.name ++ ": "
      ++ toString report.items ++ " items in segments " ++ toString report.tailId ++ "..="
      ++ toString report.headId ++ " (" ++ toString report.dataBytes ++ " bytes)")
    :: report.findings.map fun f => "    - " ++ f.message

/-- The report on one table as JSON. -/
def json (report : TableReport) : Text.Json :=
  .object [("name", .text report.name), ("items", .number report.items),
    ("tail_id", .number report.tailId), ("head_id", .number report.headId),
    ("data_bytes", .number report.dataBytes),
    ("findings", .list (report.findings.map fun f => .text f.message))]

end TableReport

namespace ArchiveReport

/-- The report as text. -/
def text (report : ArchiveReport) : String :=
  CommandLine.lines <|
    ["Verifying block file at " ++ report.path.text, ""]
    ++ report.tables.flatMap TableReport.textLines
    ++ report.findings.map (fun f => "  - " ++ f)
    ++ ["",
      if report.isOk then "Block file verification passed"
      else "Block file verification failed"]

/-- The report as JSON. -/
def json (report : ArchiveReport) : Text.Json :=
  .object [("path", .text report.path.text), ("tables", .list (report.tables.map TableReport.json)),
    ("findings", .list (report.findings.map fun f => .text f))]

/-- The report in a format. -/
def render (report : ArchiveReport) : CommandLine.Format → String
  | .text => report.text
  | .json => report.json.pretty ++ "\n"

end ArchiveReport

end BlockArchive
