import BlockArchive.Error

/-! # Why a command fails

`message` is the text for people, `debug` the form in which the program shows its cause when it
ends. -/

namespace BlockArchive.CommandLine

/-- Why a command fails. -/
inductive CommandError where
  /-- The command needs the path of an archive. -/
  | missingPath (command : String)
  /-- No output format has this name. -/
  | unknownFormat (name : String)
  /-- The directory holds no archive. -/
  | noArchive (path : Path)
  /-- The audit found something amiss. -/
  | auditFailed (findings : Nat)
  /-- The archive refused. -/
  | refused (cause : Error)
deriving DecidableEq, Repr

namespace CommandError

/-- The text for people. -/
def message : CommandError → String
  | missingPath command => "block file path required for " ++ command
  | unknownFormat name => "unknown output format '" ++ name ++ "', expected text or json"
  | noArchive path => "no block file found at " ++ path.text
  | auditFailed findings => "verification failed with " ++ toString findings ++ " finding(s)"
  | refused cause => cause.message

/-- The form with the names of the cases. -/
def debug : CommandError → String
  | missingPath command => "MissingPath(" ++ Text.quoted command ++ ")"
  | unknownFormat name => "UnknownFormat(" ++ Text.quoted name ++ ")"
  | noArchive path => "NotABlockFile(" ++ Text.quoted path.text ++ ")"
  | auditFailed findings => "VerifyFailed(" ++ toString findings ++ ")"
  | refused cause => "BlockFile(" ++ cause.debug ++ ")"

end CommandError

end BlockArchive.CommandLine
