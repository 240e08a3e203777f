/-! # Digits

Whole numbers as digits, in lower case, with zeros in front up to a width. -/

namespace BlockArchive.Text

/-- The digits of `n` in a base of at most sixteen, with zeros in front up to `width` of them. -/
def zeroPadded (base width n : Nat) : List Char :=
  let digits := Nat.toDigits base n
  List.replicate (width - digits.length) '0' ++ digits

end BlockArchive.Text
