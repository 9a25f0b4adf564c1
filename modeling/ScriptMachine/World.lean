import ScriptMachine.Settings
import ScriptMachine.Upvalue

/-!
# The world

Everything that outlives a call: tables, functions, captured variables, the machines that have
been loaded, and what has been written, traced and recorded.  Programs of the host act on the
world alone, which `settle` describes: it runs a program up to its end or its next call.
-/

namespace ScriptMachine

/-! ## Functions and machines -/

/-- A prototype with its captured variables, bound to a machine. -/
structure Closure where
  /-- The machine that runs it. -/
  vm : VmId
  /-- Its prototype. -/
  prototype : Nat
  /-- Its captured variables. -/
  upvalues : Array CellId

/-- What a function is. -/
inductive FunctionBody where
  /-- A function of the host. -/
  | native (name : Bytes) (run : List Value → FunctionProgram)
  /-- A function of a script. -/
  | closure (closure : Closure)

/-- A virtual machine: a loaded module with its environment and settings. -/
structure Vm where
  /-- The module. -/
  module : Module
  /-- The table of globals. -/
  environment : Option TableId
  /-- The settings. -/
  settings : Settings
  /-- Whether it has not been closed. -/
  alive : Bool := true
  /-- Whether the host still holds it. -/
  held : Bool := true
  /-- Count of its calls in progress. -/
  depth : Nat := 0
  /-- Count of the instructions that it has traced. -/
  traced : Nat := 0

/-- A machine without code. -/
def Vm.empty : Vm :=
  { module := { version := 0, typesVersion := 0, strings := [], prototypes := #[], main := 0 }
    environment := none, settings := {} }

/-- Whether a machine is still there: the host holds it, or one of its own calls is in progress. -/
def Vm.isPresent (vm : Vm) : Bool := vm.held || 0 < vm.depth

/-- A prototype of a machine's module. -/
def Vm.prototype (vm : Vm) (index : Nat) : Prototype := vm.module.prototype index

/-! ## The world -/

/-- The state that outlives a call. -/
structure World where
  /-- The tables. -/
  heap : Heap := {}
  /-- The functions by the index of their identity. -/
  functions : Array FunctionBody := #[]
  /-- The captured variables. -/
  cells : Cells := {}
  /-- The machines by their number. -/
  vms : Array Vm := #[]
  /-- What has been written, in pieces. -/
  output : Array Bytes := #[]
  /-- The lines that have been traced. -/
  traceLines : Array Bytes := #[]
  /-- What the host has recorded, each with the tables of that moment. -/
  events : Array (Event × Heap) := #[]
  /-- How often hooks have been counted. -/
  counts : List ((VmId × HookKind) × Nat) := []
  /-- The serial number of the next frame. -/
  nextFrame : Nat := 0

instance : Inhabited World := ⟨{}⟩

namespace World

/-- A machine by its number. -/
def vm? (w : World) (id : VmId) : Option Vm := w.vms[id.index]?

/-- The world with a machine changed. -/
def modifyVm (w : World) (id : VmId) (f : Vm → Vm) : World :=
  { w with vms := w.vms.modify id.index f }

/-- What a function is, if it is one of this world. -/
def function? (w : World) (id : FunctionId) : Option FunctionBody := w.functions[id.index]?

/-- A new function. -/
def createFunction (w : World) (body : FunctionBody) : FunctionId × World :=
  (⟨w.functions.size⟩, { w with functions := w.functions.push body })

/-- The name of a function: its own for one of the host, that of its prototype for a closure. -/
def functionName (w : World) (id : FunctionId) : Bytes :=
  match w.function? id with
  | some (.native name _) => name
  | some (.closure c) =>
    match w.vm? c.vm with
    | some vm => (vm.prototype c.prototype).name
    | none => []
  | none => []

/-- The world in which the host has closed a machine that it holds: it never runs again. -/
def close (w : World) (id : VmId) : World :=
  w.modifyVm id fun vm => { vm with alive := vm.alive && !vm.held }

/-- The world in which the host has given a machine up. -/
def release (w : World) (id : VmId) : World := w.modifyVm id fun vm => { vm with held := false }

/-- The world with a breakpoint set or cleared in a machine, if the host holds it. -/
def setBreakpoint (w : World) (id : VmId) (index slot : Nat) (enabled : Bool) :
    Except MissingSlot World :=
  match w.vm? id with
  | some vm =>
    if vm.held then
      (vm.module.setBreakpoint index slot enabled).map fun m =>
        w.modifyVm id fun vm => { vm with module := m }
    else .ok w
  | none => .ok w

/-- The world with an event recorded. -/
def record (w : World) (event : Event) : World :=
  { w with events := w.events.push (event, w.heap) }

/-- How often a hook has been counted. -/
def countOf (w : World) (id : VmId) (kind : HookKind) : Nat :=
  (w.counts.lookup (id, kind)).getD 0

/-- The world with a hook counted once more. -/
def countUp (w : World) (id : VmId) (kind : HookKind) : World :=
  { w with counts :=
      ((id, kind), w.countOf id kind + 1) :: w.counts.filter fun entry => entry.1 != (id, kind) }

end World

/-! ## Running programs of the host -/

/-- Where a program has come to. -/
inductive Settled (κ α : Type) where
  /-- It has ended with a result. -/
  | done (result : α)
  /-- It has ended with a failure. -/
  | fail (failure : Failure)
  /-- It makes a call. -/
  | call (target : κ) (resume : Except Failure (List Value) → Program κ α)

/-- Runs a program up to its end or its next call. -/
def Program.settle {κ α : Type} : Program κ α → World → World × Settled κ α
  | done result, w => (w, .done result)
  | fail failure, w => (w, .fail failure)
  | call target resume, w => (w, .call target resume)
  | get t key resume, w => (resume (w.heap.get t key)).settle w
  | set t key value rest, w =>
    match w.heap.set t key value with
    | .ok heap => rest.settle { w with heap }
    | .error f => (w, .fail (.fault f))
  | next t key resume, w =>
    match w.heap.next t key with
    | .ok pair => (resume pair).settle w
    | .error f => (w, .fail (.fault f))
  | length t resume, w => (resume (w.heap.length t)).settle w
  | write bytes rest, w => rest.settle { w with output := w.output.push bytes }
  | close vm rest, w => rest.settle (w.close vm)
  | release vm rest, w => rest.settle (w.release vm)
  | breakpoint vm index slot enabled rest, w =>
    match w.setBreakpoint vm index slot enabled with
    | .ok w => rest.settle w
    | .error missing => (w, .fail (.missingSlot missing))
  | record event rest, w => rest.settle (w.record event)
  | count vm kind resume, w =>
    let w := w.countUp vm kind
    (resume (w.countOf vm kind)).settle w

/-- Runs a program that makes no calls. -/
def Program.perform {α : Type} (p : HookProgram α) (w : World) : World × Except Failure α :=
  match p.settle w with
  | (w, .done result) => (w, .ok result)
  | (w, .fail failure) => (w, .error failure)

end ScriptMachine
