/-!
# Command-line arguments

A command line has options, then a command, then the operands of the command. An argument is told
apart by its dashes alone: two dashes start a long option, one dash a short one, a dash by itself is a
word, and after two dashes by themselves every argument is a word. A word may be the value of an option
even if it is the name of a command.

* **`Arguments.parse`** reads a command line, or says why there is nothing to run;
* **`Arguments.ofLine`** splits a line of text into arguments.
-/

namespace LsmTree.CommandLine

/-- What to do with the store. -/
inductive Command
  | get (key : String)
  | put (key value : String)
  | del (key : String)
  | scan (start stop : Option String)
  | flush
  | compact
  | stats
  deriving DecidableEq, Repr

/-- The options before the command. -/
structure Options where
  dataDir : Option String := none
  verify : Bool := false
  deriving DecidableEq, Repr

/-- A command with the options it is to be run with. -/
structure Invocation where
  options : Options
  command : Command
  deriving DecidableEq, Repr

/-- Why a command line asks for nothing to be run. -/
inductive Refusal
  /-- It is not well-formed. -/
  | usage
  /-- It asks for the version. -/
  | version
  /-- It asks how the program is used. -/
  | help
  deriving DecidableEq, Repr

namespace Arguments

/-- An argument, by its dashes. -/
inductive Shape
  /-- Two dashes by themselves. -/
  | escape
  /-- A long option, with a value if one follows an equals sign. -/
  | long (name : String) (value : Option String)
  /-- A short option and what follows it in the same argument. -/
  | short (flag : Char) (attached : List Char)
  /-- Anything else. -/
  | word
  deriving DecidableEq, Repr

/-- The shape of an argument. -/
def shape (argument : String) : Shape :=
  match argument.toList with
  | ['-', '-'] => .escape
  | '-' :: '-' :: rest =>
    match rest.span (· ≠ '=') with
    | (name, []) => .long (String.ofList name) none
    | (name, _ :: value) => .long (String.ofList name) (some (String.ofList value))
  | '-' :: flag :: attached => .short flag attached
  | _ => .word

/-- The value attached to a short option: an equals sign before it does not count. -/
def attachedValue : List Char → String
  | '=' :: value => String.ofList value
  | value => String.ofList value

/-- The operands of a command that takes no options and so many of them at most. An operand too many is
refused where it stands, so that what follows it is not looked at. -/
def operands : (limit : Nat) → List String → Except Refusal (List String)
  | _, [] => .ok []
  | limit, argument :: rest =>
    match shape argument, limit with
    | .word, limit + 1 => (argument :: ·) <$> operands limit rest
    | .escape, limit => if rest.length ≤ limit then .ok rest else .error .usage
    | .long "help" none, _ | .short 'h' _, _ => .error .help
    | _, _ => .error .usage

/-- Sets an option that may be given once. -/
def once (current : Option String) (value : String) : Except Refusal (Option String) :=
  match current with
  | none => .ok (some value)
  | some _ => .error .usage

/-- The bounds of a scan. -/
def bounds (start stop : Option String) : List String → Except Refusal Command
  | [] => .ok (.scan start stop)
  | argument :: rest =>
    match shape argument, rest with
    | .escape, [] => .ok (.scan start stop)
    | .long "from" (some value), rest => do bounds (← once start value) stop rest
    | .long "to" (some value), rest => do bounds start (← once stop value) rest
    | .long "from" none, value :: rest =>
      if shape value = .word then do bounds (← once start value) stop rest else .error .usage
    | .long "to" none, value :: rest =>
      if shape value = .word then do bounds start (← once stop value) rest else .error .usage
    | .long "help" none, _ | .short 'h' _, _ => .error .help
    | _, _ => .error .usage

/-- The names of the commands, with the number of operands of each. -/
def arities : List (String × Nat) :=
  [("get", 1), ("put", 2), ("del", 1), ("scan", 0), ("flush", 0), ("compact", 0), ("stats", 0)]

/-- What a request for help is refused as: help is given on the program or on one command. -/
def help : List String → Refusal
  | [] => .help
  | [topic] => if topic = "help" ∨ (arities.lookup topic).isSome then .help else .usage
  | _ => .usage

/-- A command by its name, with its operands. -/
def command (name : String) (rest : List String) : Except Refusal Command :=
  if name = "help" then .error (help rest)
  else if name = "scan" then bounds none none rest
  else
    match arities.lookup name with
    | none => .error .usage
    | some limit => do
      match name, ← operands limit rest with
      | "get", [key] => .ok (.get key)
      | "put", [key, value] => .ok (.put key value)
      | "del", [key] => .ok (.del key)
      | "flush", [] => .ok .flush
      | "compact", [] => .ok .compact
      | "stats", [] => .ok .stats
      | _, _ => .error .usage

/-- Sets the data directory: once, and not to nothing. -/
def setDataDir (options : Options) (value : String) : Except Refusal Options :=
  if value = "" then .error .usage
  else do return { options with dataDir := ← once options.dataDir value }

/-- Reads options up to the command. -/
def parseFrom (options : Options) : List String → Except Refusal Invocation
  | [] => .error .usage
  | argument :: rest =>
    match shape argument, rest with
    | .word, rest => do return ⟨options, ← command argument rest⟩
    | .long "verify" none, rest =>
      if options.verify then .error .usage else parseFrom { options with verify := true } rest
    | .long "data-dir" (some value), rest => do parseFrom (← setDataDir options value) rest
    | .short 'd' (c :: attached), rest => do
      parseFrom (← setDataDir options (attachedValue (c :: attached))) rest
    | .long "data-dir" none, value :: rest | .short 'd' [], value :: rest =>
      if shape value = .word then do parseFrom (← setDataDir options value) rest
      else .error .usage
    | .long "version" none, _ | .short 'V' _, _ => .error .version
    | .long "help" none, _ | .short 'h' _, _ => .error .help
    | _, _ => .error .usage

/-- Reads a command line. -/
def parse (arguments : List String) : Except Refusal Invocation :=
  parseFrom {} arguments

/-- The arguments that a line of text holds: its words between blanks. -/
def ofLine (line : String) : List String :=
  ((line.toList.splitOnP Char.isWhitespace).filter (· ≠ [])).map String.ofList

end Arguments

end LsmTree.CommandLine
