import BlockArchive.Audit
import BlockArchive.Crash

/-! # Recovery drills

A drill fills a fresh archive with sample rows, leaves it in the shape of a crash, opens it again
and looks whether everything that had to survive is there, whether the next row can be appended,
and whether the audit then finds nothing.

* **`RecoveryDrill.run`** is one drill.  It never fails: an error on the way is a drill not passed.
* **`RecoveryDrill.cases`** are the drills of a full exercise, every crash on every column; those of
  a partial row concern no single column and are held once.
* **Directories.** The drill with number `n` works in the directory `run-n`. -/

namespace BlockArchive

namespace RecoveryDrill

/-- The number of rows before the crash. -/
def rows : Nat := 12

/-- How drills open their archives, unless told otherwise: the segments are so small that a new one
is begun every few rows. -/
def settings : Settings := { cap := 64 }

/-- The result of one drill. -/
structure Result where
  passed : Bool
  description : String
  /-- The number of rows before the crash. -/
  expected : Nat
  /-- The number of rows found after it. -/
  actual : Nat
  /-- What was wrong. -/
  complaint : Option String
deriving DecidableEq, Repr

/-- Appends the samples with the given numbers, each as the row of its number. -/
def appendSamples (numbers : List Nat) : Action (Archive × Disk) Unit :=
  numbers.forM fun n => Archive.append n (Row.sample n)

/-- The first of the given rows that is not stored as its sample. -/
def firstDifference : List Nat → Action (Archive × Disk) (Option Nat)
  | [] => return none
  | n :: ns => do
      if ← Archive.holds (Row.sample n) (n + 1) then firstDifference ns
      else return some n

/-- Looks at a recovered archive and appends the next row.  Answers the number of rows found, and
what is wrong with them. -/
def inspect (crash : Crash) : Action (Archive × Disk) (Nat × Option String) := do
  let actual ← Archive.count
  if rows < actual ∨ (crash.keepsAllBlocks ∧ actual ≠ rows) then
    return (actual, some "Unexpected block count after recovery")
  match ← firstDifference (List.range actual) with
  | some n => return (actual, some ("Block " ++ toString (n + 1) ++ " differs after recovery"))
  | none =>
      Archive.append actual (Row.sample actual)
      Archive.close
      return (actual, none)

/-- Holds one drill at `root`.  Answers the number of rows found, and what was wrong. -/
def attempt (root : Path) (settings : Settings) (crash : Crash) (c : Column) :
    Action Disk (Nat × Option String) := do
  Archive.within root settings do
    appendSamples (List.range rows)
    Archive.close
  crash.apply root c settings
  let (actual, complaint) ← Archive.within root settings (inspect crash)
  if complaint.isSome then return (actual, complaint)
  let report ← Attempt.ofExcept (Audit.archive (← get).files root)
  if report.isOk then return (actual, none)
  else return (actual, some ("Verification failed: " ++ report.debug))

/-- The directory of drill number `n`. -/
def directory (base : Path) (n : Nat) : Path :=
  base.join ("run-" ++ toString n)

/-- Holds drill number `n`. -/
def run (base : Path) (settings : Settings) (n : Nat) (crash : Crash) (c : Column) :
    Action Disk Result := do
  let (actual, complaint) ←
    tryCatch (attempt (directory base n) settings crash c) fun e => return (0, some e.message)
  return {
    passed := complaint.isNone, description := crash.description c, expected := rows, actual
    complaint }

/-- Holds several drills, numbered from `n` on. -/
def runFrom (base : Path) (settings : Settings) (n : Nat) :
    List (Crash × Column) → Action Disk (List Result)
  | [] => return []
  | (crash, c) :: rest => do
      let result ← run base settings n crash c
      return result :: (← runFrom base settings (n + 1) rest)

/-- The drills of a full exercise. -/
def cases : List (Crash × Column) :=
  Crash.all.flatMap fun crash =>
    match crash with
    | .partialRow _ => [(crash, .hashes)]
    | _ => Column.all.map fun c => (crash, c)

/-- Whether all drills were passed. -/
def allPassed (results : List Result) : Bool :=
  results.all Result.passed

/-- The lines of a summary that concern one drill. -/
def Result.summary (result : Result) : String :=
  "[" ++ (if result.passed then "ok" else "FAILED") ++ "] " ++ result.description
    ++ "\n  Expected: " ++ toString result.expected ++ " blocks, Actual: "
    ++ toString result.actual ++ " blocks\n"
    ++ match result.complaint with
      | some complaint => "  Error: " ++ complaint ++ "\n"
      | none => ""

/-- A summary of all drills. -/
def summary (results : List Result) : String :=
  "\n=== Crash Recovery Summary ===\nPassed: "
    ++ toString (results.filter Result.passed).length ++ "/" ++ toString results.length ++ "\n\n"
    ++ String.join (results.map Result.summary)

end RecoveryDrill

end BlockArchive
