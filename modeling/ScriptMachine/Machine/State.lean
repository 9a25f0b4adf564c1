import ScriptMachine.Machine.Frame

/-!
# The state of a run

A run has a frame that executes, the calls that wait below it, and the world.  An *effect* is a
step of an instruction on that state, which may fail: the state then stays as it was at the moment
of the failure, since the handling of an error shows the frame as it is.
-/

namespace ScriptMachine

/-! ## Waiting calls -/

/-- What a frame does with the results of the call that it waits for. -/
inductive Continuation where
  /-- Stores them from a register on: all of them when `wanted` is zero, else one less than it. -/
  | results (base wanted : Nat)
  /-- Takes them as the next round of a loop. -/
  | iteration (base arity : Nat) (distance : Int)

/-- A call that waits for another one. -/
inductive Suspended where
  /-- A call of a closure. -/
  | frame (f : Frame) (next : Continuation)
  /-- A call of a function of the host. -/
  | native (resume : Except Failure (List Value) → FunctionProgram)

/-- The calls that wait, the innermost first. -/
abbrev Stack := List Suspended

namespace Stack

/-- The waiting frame with an identity. -/
def frame? (stack : Stack) (id : FrameId) : Option Frame :=
  stack.findSome? fun
    | .frame f _ => if f.id = id then some f else none
    | .native _ => none

/-- The waiting calls with a register of one of their frames changed. -/
def putRegister (stack : Stack) (id : FrameId) (slot : Nat) (value : Value) : Stack :=
  stack.map fun
    | .frame f next => if f.id = id then .frame (f.put slot value) next else .frame f next
    | .native resume => .native resume

end Stack

/-! ## Effects -/

/-- The state of a run that executes an instruction. -/
structure Running where
  /-- The world. -/
  world : World
  /-- The frame that executes. -/
  frame : Frame
  /-- The calls below it. -/
  stack : Stack

/-- A step of an instruction. -/
abbrev Effect (α : Type) := EStateM Failure Running α

namespace Effect

/-- Raises a fault. -/
def fault {α : Type} (f : Fault) : Effect α := throw (.fault f)

/-- The result of a computation that may raise a fault. -/
def ofExcept {α : Type} : Except Fault α → Effect α
  | .ok a => pure a
  | .error f => fault f

/-- Changes the frame. -/
def modifyFrame (f : Frame → Frame) : Effect Unit := fun s =>
  .ok () { s with frame := f s.frame }

/-- Changes the world. -/
def modifyWorld (f : World → World) : Effect Unit := fun s =>
  .ok () { s with world := f s.world }

/-- The machine of the frame. -/
def vm : Effect Vm := fun s => .ok (s.world.vms.getD s.frame.vm.index .empty) s

/-- The settings of the frame's machine. -/
def settings : Effect Settings := do return (← vm).settings

/-- The prototype of the frame. -/
def prototype : Effect Prototype := do return (← vm).prototype (← get).frame.prototype

/-- The value of a register. -/
def register (slot : Nat) : Effect Value := fun s => .ok (s.frame.register slot) s

/-- Stores a value in a register. -/
def put (slot : Nat) (value : Value) : Effect Unit := modifyFrame fun f => f.put slot value

/-- Moves the position by a signed distance. -/
def jump (distance : Int) : Effect Unit := modifyFrame fun f => f.jump distance

/-- Grows the register file; fails with a stack overflow beyond the limit of the settings. -/
def ensure (size : Nat) : Effect Unit := do
  let limit := (← settings).maxRegisters
  fun s =>
    match s.frame.ensure? size limit with
    | some frame => .ok () { s with frame }
    | none => .error (.fault .stackOverflow) s

/-! ## The host -/

/-- Runs a program of the host. -/
def perform {α : Type} (p : HookProgram α) : Effect α := fun s =>
  match p.perform s.world with
  | (world, .ok a) => .ok a { s with world }
  | (world, .error failure) => .error failure { s with world }

/-- What a hook sees of a frame when an operation runs in it. -/
def contextOf (f : Frame) (opcode : Opcode) : HookContext :=
  { prototype := f.prototype, registers := f.registers, slot := f.current, top := f.top, opcode }

/-- What a hook sees when an operation runs. -/
def context (opcode : Opcode) : Effect HookContext := fun s => .ok (contextOf s.frame opcode) s

/-- Calls the step hook. -/
def stepHook (opcode : Opcode) : Effect Unit := do
  match (← settings).hooks.step with
  | some hook => perform (hook (← context opcode))
  | none => pure ()

/-- Calls the interrupt hook. -/
def interrupt (opcode : Opcode) : Effect Unit := do
  match (← settings).hooks.interrupt with
  | some hook => perform (hook (← context opcode))
  | none => pure ()

/-! ## Tables and captured variables -/

/-- The value at a key of a table. -/
def getKey (t : TableId) (key : Value) : Effect Value := fun s =>
  .ok (s.world.heap.get t key) s

/-- Stores a value at a key of a table. -/
def setKey (t : TableId) (key value : Value) : Effect Unit := fun s =>
  match s.world.heap.set t key value with
  | .ok heap => .ok () { s with world := { s.world with heap } }
  | .error f => .error (.fault f) s

/-- A new table. -/
def createTable : Effect TableId := fun s =>
  let (t, heap) := s.world.heap.create .empty
  .ok t { s with world := { s.world with heap } }

/-- The value of a captured variable, wherever it lives. -/
def readCell (id : CellId) : Effect Value := fun s =>
  match s.world.cells.cell id with
  | .closed value => .ok value s
  | .open frame slot =>
    if frame = s.frame.id then .ok (s.frame.register slot) s
    else
      match s.stack.frame? frame with
      | some f => .ok (f.register slot) s
      | none => .ok .nil s

/-- Stores a value in a captured variable, wherever it lives. -/
def writeCell (id : CellId) (value : Value) : Effect Unit := fun s =>
  match s.world.cells.cell id with
  | .closed _ =>
    .ok () { s with world :=
      { s.world with cells := s.world.cells.replace id (.closed value) } }
  | .open frame slot =>
    if frame = s.frame.id then .ok () { s with frame := s.frame.put slot value }
    else .ok () { s with stack := s.stack.putRegister frame slot value }

/-- A new captured variable that is a cell of its own. -/
def closedCell (value : Value) : Effect CellId := fun s =>
  let (id, cells) := s.world.cells.create (.closed value)
  .ok id { s with world := { s.world with cells } }

/-- The captured variable of a register of the frame. -/
def captureRegister (slot : Nat) : Effect CellId := fun s =>
  let (id, scope, cells) := s.frame.toScope.capture s.world.cells slot
  .ok id { s with world := { s.world with cells }, frame := { s.frame with toScope := scope } }

/-- Closes the captured variables of the frame from a register on. -/
def closeFrom (slot : Nat) : Effect Unit := fun s =>
  let (scope, cells) := s.frame.toScope.closeFrom s.world.cells slot
  .ok () { s with world := { s.world with cells }, frame := { s.frame with toScope := scope } }

/-- A captured variable of the frame's closure. -/
def upvalue (index : Nat) : Effect CellId := fun s =>
  match s.frame.upvalues[index]? with
  | some id => .ok id s
  | none => .error (.fault (.upvalueRange index)) s

/-- A new closure of a prototype of the frame's machine. -/
def createClosure (index : Nat) (upvalues : Array CellId) : Effect FunctionId := fun s =>
  let (f, world) :=
    s.world.createFunction (.closure { vm := s.frame.vm, prototype := index, upvalues })
  .ok f { s with world }

end Effect

end ScriptMachine
