import BlockArchive.Archive
import BlockArchive.Text.Duration

/-! # Workloads

Appending many samples in a row, counting how many went well, and the figures of such a run.

* **`appendSamples`** goes on after a failure: it keeps counting up, so that after one failure every
  further append is refused as out of sequence.
* **`Figures`** are the counts and the duration of a run; its rate is 0 for a run that took no time.
* **`CasePlan`** says how many random cases a property is tried on, and how long a failing one is
  shrunk. -/

namespace BlockArchive

/-- How many operations went well and how many did not. -/
structure Tally where
  successful : Nat
  failed : Nat
deriving DecidableEq, Repr

namespace Tally

/-- The number of operations. -/
def total (tally : Tally) : Nat :=
  tally.successful + tally.failed

/-- The tally with one more operation. -/
def count (tally : Tally) (success : Bool) : Tally :=
  if success then { tally with successful := tally.successful + 1 }
  else { tally with failed := tally.failed + 1 }

end Tally

namespace Workload

/-- Appends the sample of number `n` as row `n`; answers whether that went well. -/
def appendSample (n : Nat) : Action (Archive × Disk) Bool :=
  tryCatch (do Archive.append n (Row.sample n); return true) fun _ => return false

/-- Appends `blocks` samples, numbered from `first` on. -/
def appendFrom (first : Nat) : (blocks : Nat) → Tally → Action (Archive × Disk) Tally
  | 0, tally => return tally
  | blocks + 1, tally => do
      let success ← appendSample first
      appendFrom (first + 1) blocks (tally.count success)

/-- Appends `blocks` samples behind the blocks that are stored. -/
def appendSamples (blocks : Nat) : Action (Archive × Disk) Tally := do
  let first ← tryCatch Archive.count fun _ => return 0
  appendFrom first blocks ⟨0, 0⟩

end Workload

/-- The figures of a run. -/
structure Figures where
  tally : Tally
  /-- The duration. -/
  nanos : Nat
deriving DecidableEq, Repr

namespace Figures

/-- The duration in seconds: whole seconds and the rest are converted apart. -/
def seconds (figures : Figures) : Float :=
  (figures.nanos / 1000000000).toUInt64.toFloat
    + (figures.nanos % 1000000000).toUInt64.toFloat / 1000000000.0

/-- Operations per second. -/
def rate (figures : Figures) : Float :=
  if figures.seconds > 0.0 then figures.tally.total.toUInt64.toFloat / figures.seconds else 0.0

/-- The rate with two decimal places, from its exact value. -/
def rateText (figures : Figures) : String :=
  let (num, den) := Text.ratioOfBits figures.rate.toBits.toNat
  Text.fixed 2 num den

/-- A summary of the run called `name`. -/
def summary (figures : Figures) (name : String) : String :=
  "\n=== " ++ name ++ " ===\nOperations: " ++ toString figures.tally.total ++ " ("
    ++ toString figures.tally.failed ++ " failed)\nDuration: " ++ Text.duration figures.nanos
    ++ "\nThroughput: " ++ figures.rateText ++ " ops/sec\n"

end Figures

/-- How thoroughly a property is tried. -/
structure CasePlan where
  cases : Nat := 128
  maxShrinkSteps : Nat := 1000
deriving DecidableEq, Repr

namespace CasePlan

/-- For a quick look. -/
def quick : CasePlan := { cases := 24, maxShrinkSteps := 100 }

/-- For a long search. -/
def thorough : CasePlan := { cases := 512, maxShrinkSteps := 5000 }

end CasePlan

end BlockArchive
