import ScriptMachine.Operator.Basic
import ScriptMachine.Value

/-!
# Faults and failures

A *fault* is an error that the machine itself raises while it runs a script; each has a cause and
one message.  A *failure* is whatever ends a call without results: a fault, an error value raised
by a script, or something of the host that the machine hands on untouched.
-/

namespace ScriptMachine

/-! ## Faults -/

/-- The three numbers of a numeric loop. -/
inductive LoopNumber where
  /-- The last value. -/
  | limit
  /-- The increment. -/
  | step
  /-- The first value. -/
  | start
deriving DecidableEq, Repr

/-- The name of a loop number in messages. -/
def LoopNumber.name : LoopNumber → Bytes
  | .limit => Bytes.ofString "limit"
  | .step => Bytes.ofString "step"
  | .start => Bytes.ofString "initial value"

/-- The causes of faults. -/
inductive Fault where
  /-- A table was written at nil. -/
  | nilKey
  /-- A table was written at a NaN. -/
  | nanKey
  /-- A traversal was resumed at a key that the table does not know. -/
  | unknownKey
  /-- An operator met operands without an arithmetic. -/
  | arithmetic (op : ArithmeticOp) (left right : Kind)
  /-- A value without a negation. -/
  | negation (kind : Kind)
  /-- Two values without an order. -/
  | comparison (left right : Kind)
  /-- A value without a length. -/
  | length (kind : Kind)
  /-- A value that is no part of a concatenation. -/
  | concatenation (kind : Kind)
  /-- A value that is no function was called. -/
  | notCallable (kind : Kind)
  /-- A value that cannot be iterated over. -/
  | notIterable (kind : Kind)
  /-- A value was indexed that has no such field. -/
  | notIndexable (kind : Kind) (key : Value)
  /-- A global was set where there are no globals. -/
  | noEnvironment (key : Value)
  /-- A closure was called whose machine is gone. -/
  | released (name : Bytes)
  /-- Too many registers, or too many calls in progress. -/
  | stackOverflow
  /-- The closure constructor is not followed by its captures. -/
  | missingCapture (position count : Nat) (name : Bytes)
  /-- A capture instruction of no known kind. -/
  | unknownCapture (kind : Nat)
  /-- A capture instruction on its own. -/
  | strayCapture
  /-- An upvalue that the closure does not have. -/
  | upvalueRange (index : Nat)
  /-- A child that the prototype does not have. -/
  | childRange (index : Int)
  /-- A closure constant that is none. -/
  | notClosureConstant
  /-- A register that the frame does not have. -/
  | registerRange (index : Nat)
  /-- A list was stored into a value that is no table. -/
  | listTarget (kind : Kind)
  /-- A numeric loop over what is no number. -/
  | loopNumber (which : LoopNumber) (kind : Kind)
  /-- A generic loop whose end is not where it should be. -/
  | loopTarget (slot : Nat)
  /-- An instruction that only compiled code can run. -/
  | nativeCall
  /-- A function argument of the wrong kind. -/
  | argumentKind (position : Nat) (function expected : Bytes) (kind : Kind)
  /-- A function argument outside its range; `what` says of what. -/
  | argumentRange (position : Nat) (function what : Bytes)
  /-- A function argument that is not there. -/
  | missingArgument (position : Nat) (function : Bytes)
  /-- A fault of the host, with a text of its own. -/
  | host (text : Bytes)
deriving DecidableEq

namespace Fault

/-- What a fault has to say. -/
def text : Fault → Bytes
  | nilKey => Bytes.ofString "table index is nil"
  | nanKey => Bytes.ofString "table index is NaN"
  | unknownKey => Bytes.ofString "invalid key to 'next'"
  | arithmetic op left right => Bytes.concat
    [.ofString "attempt to perform arithmetic (", op.name, .ofString ") on ", left.name,
      .ofString " and ", right.name]
  | negation kind => .ofString "attempt to perform arithmetic (unm) on " ++ kind.name
  | comparison left right =>
    if left = right then
      Bytes.concat [.ofString "attempt to compare two ", left.name, .ofString " values"]
    else Bytes.concat [.ofString "attempt to compare ", left.name, .ofString " with ", right.name]
  | length kind =>
    Bytes.concat [.ofString "attempt to get length of a ", kind.name, .ofString " value"]
  | concatenation kind =>
    Bytes.concat [.ofString "attempt to concatenate a ", kind.name, .ofString " value"]
  | notCallable kind => Bytes.concat [.ofString "attempt to call a ", kind.name, .ofString " value"]
  | notIterable kind =>
    Bytes.concat [.ofString "attempt to iterate over a ", kind.name, .ofString " value"]
  | notIndexable kind key =>
    Bytes.concat [.ofString "attempt to index ", kind.name, .ofString " with ", key.describe]
  | noEnvironment key =>
    Bytes.concat
      [.ofString "attempt to set global ", key.describe, .ofString " without an environment"]
  | released name =>
    Bytes.concat [.ofString "attempt to call ", name, .ofString " after its VM was released"]
  | stackOverflow => .ofString "stack overflow"
  | missingCapture position count name => Bytes.concat
    [.ofString "expected CAPTURE ", .ofNat position, .ofString " of ", .ofNat count,
      .ofString " for closure ", name]
  | unknownCapture kind => .ofString "unknown capture type " ++ .ofNat kind
  | strayCapture => .ofString "CAPTURE outside of a closure constructor"
  | upvalueRange index =>
    Bytes.concat [.ofString "upvalue ", .ofNat index, .ofString " out of range"]
  | childRange index =>
    Bytes.concat [.ofString "child prototype ", .ofInt index, .ofString " out of range"]
  | notClosureConstant => .ofString "DUPCLOSURE constant is not a closure"
  | registerRange index =>
    Bytes.concat [.ofString "register ", .ofNat index, .ofString " out of range"]
  | listTarget kind =>
    Bytes.concat [.ofString "SETLIST target is a ", kind.name, .ofString " value"]
  | loopNumber which kind => Bytes.concat
    [.ofString "invalid 'for' ", which.name, .ofString " (number expected, got ", kind.name,
      .ofString ")"]
  | loopTarget slot =>
    Bytes.concat [.ofString "FORGPREP target ", .ofNat slot, .ofString " is not a FORGLOOP"]
  | nativeCall => .ofString "NATIVECALL is not supported"
  | argumentKind position function expected kind => Bytes.concat
    [.ofString "invalid argument #", .ofNat position, .ofString " to '", function, .ofString "' (",
      expected, .ofString " expected, got ", kind.name, .ofString ")"]
  | argumentRange position function what => Bytes.concat
    [.ofString "invalid argument #", .ofNat position, .ofString " to '", function, .ofString "' (",
      what, .ofString " out of range)"]
  | missingArgument position function => Bytes.concat
    [.ofString "missing argument #", .ofNat position, .ofString " to '", function, .ofString "'"]
  | host text => text

/-- The message of a fault: what it has to say, up to the first zero byte. -/
def message (f : Fault) : Bytes := f.text.untilZero

end Fault

/-! ## Breakpoint targets -/

/-- Why a slot cannot carry a breakpoint. -/
inductive MissingSlot where
  /-- There is no such prototype. -/
  | prototype (index : Nat)
  /-- The prototype has no instruction at that slot. -/
  | instruction (slot prototype : Nat)
deriving DecidableEq

/-- The message of a missing slot. -/
def MissingSlot.message : MissingSlot → Bytes
  | .prototype index =>
    Bytes.concat [.ofString "prototype ", .ofNat index, .ofString " out of range"]
  | .instruction slot index => Bytes.concat
    [.ofString "pc ", .ofNat slot, .ofString " is not an instruction of prototype ",
      .ofNat index]

/-! ## Failures -/

/-- What ends a call without results. -/
inductive Failure where
  /-- A fault of the machine. -/
  | fault (fault : Fault)
  /-- An error value raised by a script; `reported` once its panic hook has had it. -/
  | script (payload : Value) (reported : Bool)
  /-- A register of a numeric loop without a number in it. -/
  | confusion
  /-- A breakpoint that a host function wanted where there is no instruction. -/
  | missingSlot (slot : MissingSlot)
  /-- An error of the host's own. -/
  | foreign (text : Bytes)
deriving DecidableEq

namespace Failure

/-- Whether scripts and the machine may handle the failure; the others pass through untouched. -/
def isScriptLevel : Failure → Bool
  | fault _ | script _ _ => true
  | _ => false

/-- The value that a handler of the failure gets. -/
def payload : Failure → Value
  | fault f => .string f.message
  | script payload _ => payload
  | _ => .nil

/-- The message of a failure, up to the first zero byte; a confusion of kinds has none. -/
def message? : Failure → Option Bytes
  | fault f => some f.message
  | script (.string s) _ => some s.untilZero
  | script payload _ => some <|
    Bytes.concat [.ofString "(error object is a ", payload.kindName, .ofString " value)"]
  | confusion => none
  | missingSlot slot => some slot.message
  | foreign text => some text.untilZero

end Failure

end ScriptMachine
