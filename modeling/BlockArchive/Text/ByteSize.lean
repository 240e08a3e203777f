import BlockArchive.Text.Decimal

/-! # Sizes as text

A size is written in bytes below 1024, and else with one decimal place in the largest of the units
kilobyte, megabyte and gigabyte of which it holds at least one, each 1024 times the one before. -/

namespace BlockArchive.Text

/-- A number of bytes as text. -/
def byteSize (bytes : Nat) : String :=
  if bytes < 1024 then toString bytes ++ " B"
  else if bytes < 1024 * 1024 then fixed 1 bytes 1024 ++ " KB"
  else if bytes < 1024 * 1024 * 1024 then fixed 1 bytes (1024 * 1024) ++ " MB"
  else fixed 1 bytes (1024 * 1024 * 1024) ++ " GB"

end BlockArchive.Text
