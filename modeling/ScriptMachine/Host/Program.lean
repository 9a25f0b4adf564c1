import ScriptMachine.Bytecode.Opcode
import ScriptMachine.Fault
import ScriptMachine.Heap

/-!
# Programs of the host

Code of the host, be it a library function or a hook, is a *program*: a tree of the actions that
it may take on the machine, each followed by what comes after it.  Programs say what the host does
without saying how the machine does it, and they cannot touch what the host may not touch, such as
the registers of a frame.

A program of type `Program κ α` ends with a result of type `α` or a failure, and may on its way
make calls of type `κ`.  Hooks make none (`κ = Empty`); functions may call any value.
-/

namespace ScriptMachine

/-- The identity of a virtual machine. -/
structure VmId where
  /-- Its number. -/
  index : Nat
deriving DecidableEq, Repr, Inhabited

/-! ## Hooks and what they see -/

/-- The places at which a machine calls its host. -/
inductive HookKind where
  /-- Before every instruction. -/
  | step
  /-- At a breakpoint. -/
  | breakpoint
  /-- Before calls, returns, backward jumps and loop continuations. -/
  | interrupt
  /-- When an error is about to leave a frame for the first time. -/
  | panic
deriving DecidableEq, Repr

/-- What a hook sees of the frame that runs. -/
structure HookContext where
  /-- The prototype of the frame. -/
  prototype : Nat
  /-- Its registers. -/
  registers : Array Value
  /-- The slot of its instruction. -/
  slot : Nat
  /-- The last register that an operation with an open count has written. -/
  top : Int
  /-- The operation of its instruction. -/
  opcode : Opcode

/-- The report of a hook. -/
structure HookReport where
  /-- The machine whose hook it was. -/
  vm : VmId
  /-- The place at which it was called. -/
  kind : HookKind
  /-- What it saw. -/
  context : HookContext
  /-- For a panic, the message and the error value. -/
  error : Option (Bytes × Value)
  /-- Whether the host wants the report listed. -/
  listed : Bool
  /-- Whether the host wants the registers in it. -/
  showsRegisters : Bool

/-- What the host records about a run. -/
inductive Event where
  /-- A hook was called. -/
  | hook (report : HookReport)
  /-- A method call was offered to the host. -/
  | namecall (vm : VmId) (method : Bytes) (args : List Value)
  /-- Values were logged. -/
  | log (args : List Value)

/-! ## Programs -/

/-- A program of the host. -/
inductive Program (κ α : Type) where
  /-- The end, with a result. -/
  | done (result : α)
  /-- The end, with a failure. -/
  | fail (failure : Failure)
  /-- A call, followed by what to do with its results or its failure. -/
  | call (target : κ) (resume : Except Failure (List Value) → Program κ α)
  /-- Looks up a key of a table. -/
  | get (t : TableId) (key : Value) (resume : Value → Program κ α)
  /-- Stores a value in a table. -/
  | set (t : TableId) (key value : Value) (rest : Program κ α)
  /-- The pair behind a key in the traversal of a table. -/
  | next (t : TableId) (key : Value) (resume : Option (Value × Value) → Program κ α)
  /-- The border of a table. -/
  | length (t : TableId) (resume : Nat → Program κ α)
  /-- Writes bytes to the output. -/
  | write (bytes : Bytes) (rest : Program κ α)
  /-- Stops a machine for good. -/
  | close (vm : VmId) (rest : Program κ α)
  /-- Gives a machine up. -/
  | release (vm : VmId) (rest : Program κ α)
  /-- Sets or clears a breakpoint, if the machine is there. -/
  | breakpoint (vm : VmId) (prototype slot : Nat) (enabled : Bool) (rest : Program κ α)
  /-- Records an event. -/
  | record (event : Event) (rest : Program κ α)
  /-- Counts up the calls of a hook, and gives their count. -/
  | count (vm : VmId) (kind : HookKind) (resume : Nat → Program κ α)

namespace Program

variable {κ α β : Type}

/-- One program and then another that depends on its result. -/
def bind : Program κ α → (α → Program κ β) → Program κ β
  | done result, f => f result
  | fail failure, _ => fail failure
  | call target resume, f => call target fun answer => (resume answer).bind f
  | get t key resume, f => get t key fun value => (resume value).bind f
  | set t key value rest, f => set t key value (rest.bind f)
  | next t key resume, f => next t key fun pair => (resume pair).bind f
  | length t resume, f => length t fun n => (resume n).bind f
  | write bytes rest, f => write bytes (rest.bind f)
  | close vm rest, f => close vm (rest.bind f)
  | release vm rest, f => release vm (rest.bind f)
  | breakpoint vm index slot enabled rest, f => breakpoint vm index slot enabled (rest.bind f)
  | record event rest, f => record event (rest.bind f)
  | count vm kind resume, f => count vm kind fun n => (resume n).bind f

instance : Monad (Program κ) where
  pure := done
  bind := bind

/-- The program that raises a fault. -/
def fault (f : Fault) : Program κ α := fail (.fault f)

end Program

/-- A call of a function that a program makes. -/
structure FunctionCall where
  /-- What is called. -/
  function : Value
  /-- The arguments. -/
  args : List Value

/-- A program that calls nothing: what hooks and method handlers are. -/
abbrev HookProgram (α : Type) := Program Empty α

/-- A program that may call functions and ends with results: what library functions are. -/
abbrev FunctionProgram := Program FunctionCall (List Value)

end ScriptMachine
