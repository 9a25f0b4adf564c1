import ScriptMachine.World

/-!
# The base library

The functions that every script may expect among its globals.  Arguments that are missing count as
nil.  A function that needs a table or a number says which argument was none.
-/

namespace ScriptMachine

namespace Library

/-- A library function: its arguments to its program. -/
abbrev Native := List Value → FunctionProgram

/-! ## Arguments -/

/-- The table that an argument is. -/
def tableArgument {κ : Type} (args : List Value) (i : Nat) (function : String) :
    Program κ TableId :=
  match argument args i with
  | .table t => .done t
  | other => .fault (.argumentKind (i + 1) (.ofString function) (.ofString "table") other.kind)

/-- The number that an argument is or, as a string, stands for. -/
def numberArgument {κ : Type} (args : List Value) (i : Nat) (function : String) :
    Program κ Float :=
  match (argument args i).toNumber? with
  | some n => .done n
  | none => .fault
    (.argumentKind (i + 1) (.ofString function) (.ofString "number") (argument args i).kind)

/-- A number, or nil when there is none. -/
def numberOrNil (n : Option Float) : Value :=
  match n with
  | some n => .number n
  | none => .nil

/-! ## Functions -/

/-- Writes the texts of all arguments, with tabs between them, as a line. -/
def print : Native := fun args =>
  .write (Bytes.join [0x09] (args.map Value.toText) ++ [0x0a]) (.done [])

/-- The name of an argument's kind. -/
def type : Native := fun args =>
  match args with
  | [] => .fault (.missingArgument 1 (.ofString "type"))
  | value :: _ => .done [.string value.kindName]

/-- The text of an argument. -/
def tostring : Native := fun args => .done [.string (argument args 0).toText]

/-- The number that an argument stands for, in a base from 2 to 36 if one is given; nil when it
stands for none. -/
def tonumber : Native := fun args => do
  let value := argument args 0
  if (argument args 1).isNil then return [numberOrNil value.toNumber?]
  let base ← numberArgument args 1 "tonumber"
  match Number.integer? base with
  | some base =>
    if 2 ≤ base ∧ base ≤ 36 then
      match value with
      | .string _ | .number _ => return [numberOrNil (Number.readInBase base.toNat value.toText)]
      | _ => return [.nil]
    else .fault (.argumentRange 2 (.ofString "tonumber") (.ofString "base"))
  | none => .fault (.argumentRange 2 (.ofString "tonumber") (.ofString "base"))

/-- Raises its argument. -/
def error : Native := fun args => .fail (.script (argument args 0) false)

/-- Raises its second argument unless the first holds; else gives back its arguments. -/
def assert : Native := fun args =>
  if (argument args 0).truthy then .done args
  else
    match args with
    | _ :: payload :: _ => .fail (.script payload false)
    | _ => .fail (.script (.ofString "assertion failed!") false)

/-- The pair behind a key in the traversal of a table, nil at the end. -/
def next : Native := fun args => do
  let t ← tableArgument args 0 "next"
  .next t (argument args 1) fun
    | some (key, value) => .done [key, value]
    | none => .done [.nil]

/-- The function `next`, the table, and nil: what a loop over all pairs needs. -/
def pairs (next : Value) : Native := fun args => do
  let t ← tableArgument args 0 "pairs"
  return [next, .table t, .nil]

/-- The integer behind another one and its value in a table, nil when it has none. -/
def ipairsStep : Native := fun args => do
  let t ← tableArgument args 0 "ipairs"
  let i := (← numberArgument args 1 "ipairs") + 1
  .get t (.ofInt (Number.truncate i)) fun value =>
    if value.isNil then .done [.nil] else .done [.number i, value]

/-- A stepping function, the table, and zero: what a loop over the leading integers needs. -/
def ipairs (step : Value) : Native := fun args => do
  let t ← tableArgument args 0 "ipairs"
  return [step, .table t, .ofNat 0]

/-- The count of the arguments behind the first one for `"#"`, or else those from a position on,
which counts from the end when it is negative. -/
def select : Native := fun args => do
  let rest := args.drop 1
  match argument args 0 with
  | .string [0x23] => return [.ofNat rest.length]
  | _ =>
    let i := Number.truncate (← numberArgument args 0 "select")
    let i := if i < 0 then rest.length + i + 1 else i
    if i < 1 then .fault (.argumentRange 1 (.ofString "select") (.ofString "index"))
    else return rest.drop (i.toNat - 1)

/-- Calls its first argument with the others.  Gives true and the results, or false and the error
value. -/
def pcall : Native := fun args =>
  .call ⟨argument args 0, args.drop 1⟩ fun
    | .ok values => .done (.boolean true :: values)
    | .error failure =>
      if failure.isScriptLevel then .done [.boolean false, failure.payload] else .fail failure

/-- Whether two arguments are raw-equal. -/
def rawequal : Native := fun args =>
  .done [.boolean ((argument args 0).rawEq (argument args 1))]

/-- The length of a string or the border of a table. -/
def rawlen : Native := fun args =>
  match argument args 0 with
  | .string s => .done [.ofNat s.length]
  | _ => do
    let t ← tableArgument args 0 "rawlen"
    .length t fun n => .done [.ofNat n]

end Library

/-! ## Installing -/

namespace World

/-- A new function of the host. -/
def createNative (w : World) (name : String) (run : Library.Native) : FunctionId × World :=
  w.createFunction (.native (.ofString name) run)

/-- The world with a value at a field of a table. -/
def setField (w : World) (t : TableId) (name : String) (value : Value) : World :=
  { w with heap := w.heap.replace t ((w.heap.table t).setField (.ofString name) value) }

/-- The world in which a table has the functions of the base library. -/
def openLibrary (w : World) (t : TableId) : World :=
  let (next, w) := w.createNative "next" Library.next
  let (step, w) := w.createNative "ipairs_step" Library.ipairsStep
  let install (w : World) (entry : String × Library.Native) : World :=
    let (f, w) := w.createNative entry.1 entry.2
    w.setField t entry.1 (.function f)
  let w := [("print", Library.print), ("type", Library.type), ("tostring", Library.tostring),
    ("tonumber", Library.tonumber), ("error", Library.error), ("assert", Library.assert)].foldl
    install w
  let w := w.setField t "next" (.function next)
  [("pairs", Library.pairs (.function next)), ("ipairs", Library.ipairs (.function step)),
    ("select", Library.select), ("pcall", Library.pcall), ("rawequal", Library.rawequal),
    ("rawlen", Library.rawlen)].foldl install w

end World

end ScriptMachine
