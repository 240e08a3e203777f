import BlockArchive.Text.Digits

/-! # JSON text

Values of the JSON format and their indented form: two blanks per level, one member or element to a
line, and nothing between the brackets of an empty list or object. -/

namespace BlockArchive.Text

/-- A JSON value of the kinds that reports are made of.  The members of an object keep their
order. -/
inductive Json where
  | number (n : Nat)
  | text (s : String)
  | list (elements : List Json)
  | object (members : List (String × Json))

namespace Json

/-- One character of a JSON string.  Only quotes, backslashes and control characters are escaped. -/
def escaped (c : Char) : List Char :=
  match c with
  | '"' => ['\\', '"']
  | '\\' => ['\\', '\\']
  | '\n' => ['\\', 'n']
  | '\r' => ['\\', 'r']
  | '\t' => ['\\', 't']
  | '\x08' => ['\\', 'b']
  | '\x0c' => ['\\', 'f']
  | c => if c.toNat < 0x20 then '\\' :: 'u' :: zeroPadded 16 4 c.toNat else [c]

/-- A JSON string. -/
def stringLiteral (s : String) : String :=
  String.ofList ('"' :: s.toList.flatMap escaped ++ ['"'])

/-- The blanks at the start of a line. -/
def indent (level : Nat) : String :=
  String.ofList (List.replicate (2 * level) ' ')

/-- Lines, each one level further in, between brackets that stand at `level`. -/
def block (level : Nat) (opening closing : String) (lines : List String) : String :=
  if lines.isEmpty then opening ++ closing
  else
    let inner := "\n" ++ indent (level + 1)
    opening ++ inner ++ String.intercalate ("," ++ inner) lines ++ "\n" ++ indent level ++ closing

mutual

/-- The indented form of a value on a line that stands at `level`. -/
def prettyAt (level : Nat) : Json → String
  | number n => toString n
  | text s => stringLiteral s
  | list elements => block level "[" "]" (elementLines (level + 1) elements)
  | object members => block level "\x7b" "\x7d" (memberLines (level + 1) members)

/-- The elements of a list. -/
def elementLines (level : Nat) : List Json → List String
  | [] => []
  | e :: es => prettyAt level e :: elementLines level es

/-- The members of an object. -/
def memberLines (level : Nat) : List (String × Json) → List String
  | [] => []
  | (name, value) :: rest =>
      (stringLiteral name ++ ": " ++ prettyAt level value) :: memberLines level rest

end

/-- The indented form of a value. -/
def pretty (value : Json) : String :=
  prettyAt 0 value

end Json

end BlockArchive.Text
