import BlockArchive.Path

/-! # Command-line arguments

Which request a list of arguments makes.

* **Grammar.** Options, then the name of a command, then options again.  `--path` and `--verbose`
  may stand on either side; on the right the path wins.  Every option may be given once per side.
* **Spelling.** A long option is `--name value` or `--name=value`.  Short options may share a
  dash; one that takes a value ends the group, and its value follows at once, after an equals sign,
  or as the next argument.  An argument that starts with a dash, and is not a dash alone, is never
  taken as the value of the option before it.  After `--` nothing may follow.
* **Outcome.** The first thing that settles the matter counts: an argument that does not fit, or a
  request for help or for the version.  Otherwise all that the command needs has to be there. -/

namespace BlockArchive.CommandLine

/-- What a user can ask for. -/
inductive Request where
  | inspect (format : String)
  | verify (format : String)
  | get (table : String) (number : Nat)
  | truncate (blocks : Nat)
  | version
deriving DecidableEq, Repr

/-- A request and the path it is about. -/
structure Invocation where
  path : Option Path
  request : Request
deriving DecidableEq, Repr

/-- Why arguments make no request. -/
inductive Stop where
  | usage
  | help
  | programVersion
deriving DecidableEq, Repr

/-- The kinds of values that options take. -/
inductive ValueKind where
  /-- Any text but the empty one. -/
  | path
  /-- Any text. -/
  | text
  /-- A number of at most 64 bits. -/
  | number
deriving DecidableEq, Repr

/-- What an option does. -/
inductive OptionKind where
  | value (kind : ValueKind)
  | flag
  | stop (reason : Stop)
deriving DecidableEq, Repr

/-- An option: its letter, its name and what it does. -/
structure OptionSpec where
  letter : Char
  name : String
  kind : OptionKind
deriving DecidableEq, Repr

/-- The options found so far, by name, with their values; a flag has an empty value. -/
abbrev Options := List (String × String)

namespace Arguments

/-! ### The grammar -/

/-- The options that every command takes. -/
def commonOptions : List OptionSpec :=
  [⟨'p', "path", .value .path⟩, ⟨'v', "verbose", .flag⟩, ⟨'h', "help", .stop .help⟩]

/-- The options before the command. -/
def leadingOptions : List OptionSpec :=
  commonOptions ++ [⟨'V', "version", .stop .programVersion⟩]

/-- The options of its own that a command takes; `none` if there is no such command. -/
def optionsOf? : String → Option (List OptionSpec)
  | "inspect" => some [⟨'f', "format", .value .text⟩]
  | "verify" => some [⟨'f', "format", .value .text⟩]
  | "get" => some [⟨'t', "table", .value .text⟩, ⟨'n', "number", .value .number⟩]
  | "truncate" => some [⟨'b', "blocks", .value .number⟩]
  | "version" => some []
  | _ => none

/-! ### Values -/

/-- The number written by these digits, if they are all decimal digits. -/
def digitsValue : List Char → Nat → Option Nat
  | [], n => some n
  | c :: cs, n => if c.isDigit then digitsValue cs (10 * n + (c.toNat - 48)) else none

/-- A number of at most 64 bits; one plus sign may stand before it. -/
def number? (text : String) : Option Nat :=
  let digits :=
    match text.toList with
    | '+' :: rest => rest
    | chars => chars
  if digits.isEmpty then none
  else (digitsValue digits 0).filter (· < UInt64.size)

/-- Whether an option accepts a value. -/
def ValueKind.accepts (kind : ValueKind) (text : String) : Bool :=
  match kind with
  | .path => text ≠ ""
  | .text => true
  | .number => (number? text).isSome

/-- Whether an argument starts options: it starts with a dash and is more than a dash. -/
def startsOptions (argument : String) : Bool :=
  match argument.toList with
  | '-' :: _ :: _ => true
  | _ => false

/-! ### Scanning -/

/-- The characters before the first equals sign, and those after it if there is one. -/
def splitAtEquals : List Char → List Char × Option (List Char)
  | [] => ([], none)
  | c :: cs =>
      if c = '=' then ([], some cs)
      else
        let (before, after) := splitAtEquals cs
        (c :: before, after)

/-- Adds an option; it must not be there already. -/
def record (found : Options) (name value : String) : Except Stop Options :=
  if (found.lookup name).isSome then .error .usage else .ok (found ++ [(name, value)])

/-- Adds an option with a value that it has to accept. -/
def recordValue (found : Options) (name : String) (kind : ValueKind) (value : String) :
    Except Stop Options :=
  if ValueKind.accepts kind value then record found name value else .error .usage

/-- What an argument leaves to do: it was used up, or the next one is the value of an option. -/
inductive Step where
  | complete (found : Options)
  | awaiting (found : Options) (name : String) (kind : ValueKind)

/-- Takes in a long option, given without its dashes. -/
def longOption (specs : List OptionSpec) (found : Options) (chars : List Char) :
    Except Stop Step :=
  let (name, attached) := splitAtEquals chars
  match specs.find? (·.name = String.ofList name) with
  | none => .error .usage
  | some spec =>
    match spec.kind, attached with
    | .stop reason, none => .error reason
    | .flag, none => (record found spec.name "").map .complete
    | .value kind, some value =>
        (recordValue found spec.name kind (String.ofList value)).map .complete
    | .value kind, none => .ok (.awaiting found spec.name kind)
    | _, some _ => .error .usage

/-- Takes in a group of short options, given without its dash. -/
def shortOptions (specs : List OptionSpec) : Options → List Char → Except Stop Step
  | found, [] => .ok (.complete found)
  | found, c :: rest =>
    match specs.find? (·.letter = c) with
    | none => .error .usage
    | some spec =>
      match spec.kind with
      | .stop reason => .error reason
      | .flag =>
        match record found spec.name "" with
        | .ok found => shortOptions specs found rest
        | .error stop => .error stop
      | .value kind =>
        match rest with
        | [] => .ok (.awaiting found spec.name kind)
        | '=' :: value => (recordValue found spec.name kind (String.ofList value)).map .complete
        | value => (recordValue found spec.name kind (String.ofList value)).map .complete

/-- Takes in arguments up to the first that is neither an option nor the value of one.  Answers the
options, and the arguments from that one on. -/
def scan (specs : List OptionSpec) :
    Options → Option (String × ValueKind) → List String → Except Stop (Options × List String)
  | found, none, [] => .ok (found, [])
  | _, some _, [] => .error .usage
  | found, some (name, kind), argument :: rest =>
      if startsOptions argument then .error .usage
      else
        match recordValue found name kind argument with
        | .ok found => scan specs found none rest
        | .error stop => .error stop
  | found, none, argument :: rest =>
      let step : Except Stop Step ⊕ Unit :=
        match argument.toList with
        | ['-', '-'] => .inl (if rest.isEmpty then .ok (.complete found) else .error .usage)
        | '-' :: '-' :: chars => .inl (longOption specs found chars)
        | '-' :: c :: chars => .inl (shortOptions specs found (c :: chars))
        | _ => .inr ()
      match step with
      | .inr () => .ok (found, argument :: rest)
      | .inl (.error stop) => .error stop
      | .inl (.ok (.complete found)) => scan specs found none rest
      | .inl (.ok (.awaiting found name kind)) => scan specs found (some (name, kind)) rest

/-! ### Requests -/

/-- The request that a command and its options make, if nothing is missing. -/
def request (command : String) (options : Options) : Except Stop Request :=
  let format := (options.lookup "format").getD "text"
  let number (name : String) : Except Stop Nat :=
    match (options.lookup name).bind number? with
    | some n => .ok n
    | none => .error .usage
  match command with
  | "inspect" => .ok (.inspect format)
  | "verify" => .ok (.verify format)
  | "get" =>
      match options.lookup "table" with
      | some table => (number "number").map (.get table)
      | none => .error .usage
  | "truncate" => (number "blocks").map .truncate
  | "version" => .ok .version
  | _ => .error .usage

/-- The outcome of asking for help with the given words. -/
def help (topics : List String) : Stop :=
  match topics with
  | [] => .help
  | [topic] => if topic = "help" ∨ (optionsOf? topic).isSome then .help else .usage
  | _ => .usage

/-- The request that a list of arguments makes. -/
def parse (arguments : List String) : Except Stop Invocation := do
  let (leading, rest) ← scan leadingOptions [] none arguments
  match rest with
  | [] => .error .usage
  | command :: rest =>
    match optionsOf? command with
    | none => if command = "help" then .error (help rest) else .error .usage
    | some own =>
        let (options, rest) ← scan (commonOptions ++ own) [] none rest
        if rest ≠ [] then .error .usage
        let request ← request command options
        let path := (options.lookup "path").or (leading.lookup "path")
        return { path := path.map Path.ofText, request }

end Arguments

end BlockArchive.CommandLine
