import BlockArchive.CommandLine.Arguments
import BlockArchive.CommandLine.Report

/-! # Running a command

A run of the program prints a text and ends with an exit code: 0 if all went well, 1 if the command
failed, 2 if the arguments make no request.  What was printed before a failure stays printed. -/

namespace BlockArchive.CommandLine

/-- The version of the program and of the archives it works on. -/
def version : String := "0.4.0"

/-- What a run shows. -/
structure Outcome where
  exitCode : Nat
  stdout : String
  /-- Why the command failed. -/
  failure : Option CommandError
deriving DecidableEq, Repr

/-- A command that prints. -/
abbrev Printing (α : Type) : Type := Attempt CommandError (String × Disk) α

/-- Prints a text. -/
def print (text : String) : Printing Unit :=
  Attempt.update (· ++ text)

/-- The path of an invocation, which its command needs. -/
def requirePath (invocation : Invocation) (command : String) : Printing Path :=
  match invocation.path with
  | some path => return path
  | none => throw (.missingPath command)

/-- Inspects the archive and prints what it holds. -/
def runInspect (path : Path) (format : String) : Printing Unit := do
  let format ← Attempt.ofExcept (Format.ofName format)
  let inspection ← Attempt.onSecond (inspect path)
  print (inspection.render format)

/-- Audits the archive, prints the report, and fails if anything is amiss. -/
def runVerify (path : Path) (format : String) : Printing Unit := do
  let format ← Attempt.ofExcept (Format.ofName format)
  let report ← Attempt.onSecond <| Command.ofAction do
    Attempt.ofExcept (Audit.archive (← get).files path)
  print (report.render format)
  if report.findingCount ≠ 0 then throw (.auditFailed report.findingCount)

/-- Prints one column of a block. -/
def runGet (path : Path) (table : String) (number : Nat) : Printing Unit := do
  print ((← Attempt.onSecond (fetch path table number)) ++ "\n")

/-- Drops the last blocks and prints how many there were and are. -/
def runTruncate (path : Path) (blocks : Nat) : Printing Unit := do
  let (before, after) ← Attempt.onSecond (rollBack path blocks)
  if before = after then print ("Nothing to do: " ++ toString before ++ " blocks stored\n")
  else
    print ("Truncated from " ++ toString before ++ " to " ++ toString after ++ " blocks\n")

/-- Does what an invocation asks for. -/
def perform (invocation : Invocation) : Printing Unit := do
  match invocation.request with
  | .inspect format => runInspect (← requirePath invocation "inspect") format
  | .verify format => runVerify (← requirePath invocation "verify") format
  | .get table number => runGet (← requirePath invocation "get") table number
  | .truncate blocks => runTruncate (← requirePath invocation "truncate") blocks
  | .version =>
      print ("Hubstore CLI v" ++ version ++ "\nHubstore block file v" ++ version ++ "\n")

/-- Runs the program with these arguments. -/
def run (arguments : List String) (disk : Disk) : Outcome × Disk :=
  match Arguments.parse arguments with
  | .error .usage => (⟨2, "", none⟩, disk)
  | .error .help => (⟨0, "", none⟩, disk)
  | .error .programVersion => (⟨0, "hubstore " ++ version ++ "\n", none⟩, disk)
  | .ok invocation =>
    match (perform invocation).outcome ("", disk) with
    | (.ok _, (stdout, disk)) => (⟨0, stdout, none⟩, disk)
    | (.error e, (stdout, disk)) => (⟨1, stdout, some e⟩, disk)

end BlockArchive.CommandLine
