import BlockArchive.Path
import BlockArchive.Text.Quoted

/-! # What can go wrong

Errors are causes; their wording is in `message`, in one place.

* **`IoError`** is a refusal of the file system, or content that cannot be read as what it should
  be.
* **`Error`** is a refusal of a table, a lock or an archive.  `message` is the text for people and
  `debug` the form, with field names, in which an aborted command shows its cause. -/

namespace BlockArchive

/-- Why a file could not be opened, read or changed. -/
inductive IoError where
  | notFound
  | badDescriptor
  | alreadyExists
  | notADirectory
  | isADirectory
  | invalidArgument
  | nameTooLong
  | directoryNotEmpty
  | tooManyLinks
  | nullInPath
  | endOfFile
  | entriesOutOfOrder (item : Nat)
  | emptyIndex
  | other (text : String)
deriving DecidableEq, Repr

/-- The text for people; a refusal of the operating system carries its number. -/
def IoError.message : IoError → String
  | notFound => "No such file or directory (os error 2)"
  | badDescriptor => "Bad file descriptor (os error 9)"
  | alreadyExists => "File exists (os error 17)"
  | notADirectory => "Not a directory (os error 20)"
  | isADirectory => "Is a directory (os error 21)"
  | invalidArgument => "Invalid argument (os error 22)"
  | nameTooLong => "File name too long (os error 36)"
  | directoryNotEmpty => "Directory not empty (os error 39)"
  | tooManyLinks => "Too many levels of symbolic links (os error 40)"
  | nullInPath => "file name contained an unexpected NUL byte"
  | endOfFile => "failed to fill whole buffer"
  | entriesOutOfOrder item => "index entries out of order at item " ++ toString item
  | emptyIndex => "index is empty"
  | other text => text

/-- Why a table, a lock or an archive refused. -/
inductive Error where
  /-- The file system failed. -/
  | io (cause : IoError)
  /-- It was closed before. -/
  | closed
  /-- The table holds the items from `offset` to `items`, and `item` is none of them. -/
  | outOfBounds (item offset items : Nat)
  /-- Items are appended in order, and `expected` comes next. -/
  | sequence (expected got : Nat)
  /-- An archive's directory must not be a symbolic link. -/
  | linkedDirectory (path : Path)
  /-- Somebody holds the lock. -/
  | locked (path : Path)
  /-- A segment that the index names is not open. -/
  | missingSegment (table : String) (segment : Nat)
  /-- No column has this name. -/
  | unknownTable (name : String)
  /-- The size of an item does not fit in 32 bits. -/
  | itemTooLarge (size : Nat)
  /-- The table has used its last segment id. -/
  | segmentsExhausted (table : String)
  /-- The directory is absent and must not be created. -/
  | missingDirectory (path : Path)
  /-- More than one thing went wrong. -/
  | several (errors : List Error)
deriving Repr

instance : Inhabited Error := ⟨.closed⟩

namespace Error

mutual

/-- Whether two errors are the same. -/
def same : Error → Error → Bool
  | io a, io b => a = b
  | closed, closed => true
  | outOfBounds a b c, outOfBounds d e f => a = d && b = e && c = f
  | sequence a b, sequence c d => a = c && b = d
  | linkedDirectory a, linkedDirectory b => a = b
  | locked a, locked b => a = b
  | missingSegment a b, missingSegment c d => a = c && b = d
  | unknownTable a, unknownTable b => a = b
  | itemTooLarge a, itemTooLarge b => a = b
  | segmentsExhausted a, segmentsExhausted b => a = b
  | missingDirectory a, missingDirectory b => a = b
  | several a, several b => sameAll a b
  | _, _ => false

/-- Whether two lists of errors are the same. -/
def sameAll : List Error → List Error → Bool
  | [], [] => true
  | a :: as, b :: bs => same a b && sameAll as bs
  | _, _ => false

end

mutual

theorem same_iff (a b : Error) : same a b = true ↔ a = b := by
  cases a <;> cases b <;> simp [same, and_assoc]
  rename_i as bs
  exact sameAll_iff as bs

/-- `sameAll` decides equality. -/
theorem sameAll_iff (as bs : List Error) : sameAll as bs = true ↔ as = bs := by
  cases as <;> cases bs <;> simp [sameAll]
  rename_i a as b bs
  rw [same_iff a b, sameAll_iff as bs]

end

instance : DecidableEq Error := fun a b => decidable_of_iff _ (same_iff a b)

mutual

/-- The text for people. -/
def message : Error → String
  | io cause => "I/O error: " ++ cause.message
  | closed => "block file is closed"
  | outOfBounds item offset items =>
      "out of bounds: item " ++ toString item ++ ", offset " ++ toString offset
        ++ ", items " ++ toString items
  | sequence expected got =>
      "appending unexpected item: want " ++ toString expected ++ ", have " ++ toString got
  | linkedDirectory path => "symbolic link datadir is not supported: " ++ path.text
  | locked path => "block file locked: " ++ path.text
  | missingSegment table segment =>
      "missing data file " ++ toString segment ++ " in table " ++ table
  | unknownTable name => "unknown table: " ++ name
  | itemTooLarge size => "item too large: " ++ toString size ++ " bytes"
  | segmentsExhausted table => "segment id space exhausted in table " ++ table
  | missingDirectory path => "block file directory does not exist: " ++ path.text
  | several errors => "[" ++ "; ".intercalate (messages errors) ++ "]"

/-- The texts of several errors, in order. -/
def messages : List Error → List String
  | [] => []
  | e :: es => message e :: messages es

end

mutual

/-- The form with field names.  A failure of the file system shows nothing but its kind. -/
def debug : Error → String
  | io _ => "Io"
  | closed => "Closed"
  | outOfBounds item offset items =>
      "OutOfBounds \x7b item: " ++ toString item ++ ", offset: " ++ toString offset
        ++ ", items: " ++ toString items ++ " \x7d"
  | sequence expected got =>
      "Sequence \x7b expected: " ++ toString expected ++ ", got: " ++ toString got ++ " \x7d"
  | linkedDirectory path =>
      "SymlinkUnsupported \x7b path: " ++ Text.quoted path.text ++ " \x7d"
  | locked path => "Locked \x7b path: " ++ Text.quoted path.text ++ " \x7d"
  | missingSegment table segment =>
      "MissingDataFile \x7b table: " ++ Text.quoted table ++ ", filenum: "
        ++ toString segment ++ " \x7d"
  | unknownTable name => "UnknownTable \x7b name: " ++ Text.quoted name ++ " \x7d"
  | itemTooLarge size => "ItemTooLarge \x7b size: " ++ toString size ++ " \x7d"
  | segmentsExhausted table => "SegmentLimit \x7b table: " ++ Text.quoted table ++ " \x7d"
  | missingDirectory path =>
      "MissingDirectory \x7b path: " ++ Text.quoted path.text ++ " \x7d"
  | several errors => "Multiple([" ++ ", ".intercalate (debugs errors) ++ "])"

/-- The forms of several errors, in order. -/
def debugs : List Error → List String
  | [] => []
  | e :: es => debug e :: debugs es

end

/-- Whether the error says that something was closed before. -/
def isClosed (e : Error) : Bool := e = closed

/-- Whether the error says that an item is not there. -/
def isOutOfBounds : Error → Bool
  | outOfBounds .. => true
  | _ => false

/-- One error for a list of them: none for none, and a single one for itself. -/
def ofList? : List Error → Option Error
  | [] => none
  | [e] => some e
  | es => some (several es)

end Error

end BlockArchive
