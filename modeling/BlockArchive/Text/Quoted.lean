import BlockArchive.Text.Unprintable

/-! # Quoted text

A text between double quotes, as it appears inside other output.

* A quote and a backslash are written with a backslash before them.
* A tab, a line feed, a carriage return and the null character have letters of their own.
* Any other character that is not shown as itself is written by its number, in lower-case
  hexadecimal digits between braces.
* All else, blanks and letters of any script, stands for itself. -/

namespace BlockArchive.Text

/-- One character of a quoted text. -/
def quotedChar (c : Char) : List Char :=
  match c with
  | '"' => ['\\', '"']
  | '\\' => ['\\', '\\']
  | '\t' => ['\\', 't']
  | '\n' => ['\\', 'n']
  | '\r' => ['\\', 'r']
  | '\x00' => ['\\', '0']
  | c =>
      if c.toNat < 0x20 ∨ c.toNat = 0x7f ∨ (0x7f < c.toNat ∧ isUnprintable c) then
        ['\\', 'u', '\x7b'] ++ Nat.toDigits 16 c.toNat ++ ['\x7d']
      else [c]

/-- `text` between quotes. -/
def quoted (text : String) : String :=
  String.ofList ('"' :: text.toList.flatMap quotedChar ++ ['"'])

end BlockArchive.Text
