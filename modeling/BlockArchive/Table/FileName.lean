import BlockArchive.Text.Digits

/-! # Names of the files of a table

A table called `t` keeps its index in `t.ridx` and its segments in `t.0000.rdat`, `t.0001.rdat`
and so on: the id in decimal, with zeros in front up to four digits. -/

namespace BlockArchive.Table

/-- The name of a table's index file. -/
def indexFileName (table : String) : String :=
  table ++ ".ridx"

/-- The name of the file of a table's segment `id`. -/
def segmentFileName (table : String) (id : Nat) : String :=
  table ++ "." ++ String.ofList (Text.zeroPadded 10 4 id) ++ ".rdat"

end BlockArchive.Table
