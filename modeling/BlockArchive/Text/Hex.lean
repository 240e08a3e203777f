import BlockArchive.Bytes

/-! # Hexadecimal text

Two lower-case digits per byte, in the order of the bytes, with nothing between them. -/

namespace BlockArchive.Text

/-- The digit for a number below sixteen. -/
def hexDigit (n : Nat) : Char :=
  if n < 10 then Char.ofNat (48 + n) else Char.ofNat (87 + n)

/-- The two digits of a byte. -/
def hexByte (b : UInt8) : List Char :=
  [hexDigit (b.toNat / 16), hexDigit (b.toNat % 16)]

/-- Bytes written as hexadecimal digits. -/
def hex (data : Bytes) : String :=
  String.ofList (data.flatMap hexByte)

end BlockArchive.Text
