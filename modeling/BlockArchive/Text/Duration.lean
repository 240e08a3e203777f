import BlockArchive.Text.Decimal

/-! # Durations as text

A duration is written in the largest of the units second, millisecond, microsecond and nanosecond of
which it holds at least one, with all decimal places it has. -/

namespace BlockArchive.Text

/-- A number of nanoseconds as text. -/
def duration (nanos : Nat) : String :=
  if 1000000000 ≤ nanos then exact 9 nanos ++ "s"
  else if 1000000 ≤ nanos then exact 6 nanos ++ "ms"
  else if 1000 ≤ nanos then exact 3 nanos ++ "µs"
  else exact 0 nanos ++ "ns"

end BlockArchive.Text
