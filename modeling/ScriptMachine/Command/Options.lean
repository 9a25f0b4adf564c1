import ScriptMachine.Bytes
import ScriptMachine.Number.Numeral

/-!
# Options of the command line

The first argument says what to do.  Among the others are options, of which the last one of a kind
counts, and paths, of which the last one is the module; anything else that begins with a hyphen is
passed over, and so is an option at the end whose value is missing.
-/

namespace ScriptMachine

namespace Command

/-- What to do with a module. -/
inductive Mode where
  /-- Run it and write its results. -/
  | run
  /-- Write its listing. -/
  | dump
  /-- Run it and write the report on its coverage. -/
  | coverage
deriving DecidableEq, Repr

/-- The modes by their arguments. -/
def Mode.all : List (String × Mode) :=
  [("--run", .run), ("--dump", .dump), ("--coverage", .coverage)]

/-- The mode that an argument asks for. -/
def Mode.ofArgument? (argument : Bytes) : Option Mode :=
  (Mode.all.find? fun entry => .ofString entry.1 == argument).map (·.2)

/-- The options. -/
structure Options where
  /-- The path of a document of settings, empty for none. -/
  settingsPath : Bytes := []
  /-- Whether to trace instructions. -/
  trace : Bool := false
  /-- The greatest count of traced instructions, zero when it is not given. -/
  traceLimit : Nat := 0
  /-- The paths. -/
  paths : List Bytes := []
deriving DecidableEq

/-- What a command line asks for. -/
inductive Request where
  /-- The usage; `expected` when it was asked for. -/
  | usage (expected : Bool)
  /-- The version. -/
  | version
  /-- Work on the module at a path. -/
  | process (mode : Mode) (options : Options) (path : Bytes)
deriving DecidableEq

/-- The number of 64 bits at the beginning of a text, zero when there is none: white space, a sign
and digits.  It is at most 2^64 - 1, and behind a minus sign it is negated modulo 2^64. -/
def countArgument (s : Bytes) : Nat :=
  let (negative, unsigned) := Number.takeSign (Bytes.trimLeft s)
  let value := Bytes.valueOfDigits 10 (Bytes.readDigits 10 unsigned).1
  if 2 ^ 64 ≤ value then 2 ^ 64 - 1 else if negative then (2 ^ 64 - value) % 2 ^ 64 else value

/-- The argument that begins an option with a value behind it. -/
def settingsMark : Bytes := .ofString "--settings="

/-- The options that arguments give. -/
def Options.read (options : Options) : List Bytes → Options
  | [] => options
  | argument :: rest =>
    let single : Options :=
      if settingsMark.isPrefixOf argument then
        { options with settingsPath := argument.drop settingsMark.length }
      else if argument = .ofString "--trace" then { options with trace := true }
      else if argument.head?.any (· != Bytes.ofChar '-') then
        { options with paths := options.paths ++ [argument] }
      else options
    match rest with
    | [] => single
    | value :: others =>
      if argument = .ofString "--settings" then
        { options with settingsPath := value }.read others
      else if argument = .ofString "--trace-limit" then
        { options with traceLimit := countArgument value }.read others
      else single.read (value :: others)

/-- What arguments ask for. -/
def Request.ofArguments : List Bytes → Request
  | [] => .usage true
  | first :: rest =>
    if first = .ofString "--help" then .usage true
    else if first = .ofString "--version" then .version
    else
      match Mode.ofArgument? first with
      | none => .usage false
      | some mode =>
        let options := Options.read {} rest
        match options.paths.getLast? with
        | none => .usage false
        | some path => .process mode options path

end Command

end ScriptMachine
