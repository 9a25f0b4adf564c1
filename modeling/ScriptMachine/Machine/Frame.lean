import ScriptMachine.Iteration
import ScriptMachine.World

/-!
# Frames

A frame is one call of a closure in progress: its registers with the cells on them, its extra
arguments, where it stands in the code, and the traversals that drive its loops.  Registers are
addressed by number; a number outside the register file reads as nil and is not written.
-/

namespace ScriptMachine

/-- A call in progress. -/
structure Frame extends Scope where
  /-- The machine that runs it. -/
  vm : VmId
  /-- Its prototype. -/
  prototype : Nat
  /-- The captured variables of its closure. -/
  upvalues : Array CellId
  /-- The arguments behind the parameters, when the prototype takes them. -/
  varargs : List Value
  /-- The slot to run next. -/
  pc : Nat := 0
  /-- The slot of the instruction that runs. -/
  current : Nat := 0
  /-- The last register that an operation with an open count has written. -/
  top : Int := -1
  /-- The traversals that drive loops, by the slot of the loop's end. -/
  iterators : List (Nat × Bridge) := []

namespace Frame

/-! ## Entry -/

/-- The registers at the start of a call: the arguments for the parameters, then nil. -/
def initialRegisters (size params : Nat) (args : List Value) : Array Value :=
  (fitTo size (args.take params)).toArray

/-- The frame of a call that begins. -/
def enter (id : FrameId) (p : Prototype) (closure : Closure) (args : List Value) : Frame :=
  { id, vm := closure.vm, prototype := closure.prototype, upvalues := closure.upvalues
    registers := initialRegisters (max p.maxStackSize.toNat 1) p.numParams.toNat args
    varargs := if p.isVararg then args.drop p.numParams.toNat else [] }

/-! ## Registers -/

/-- The values of consecutive registers. -/
def slice (f : Frame) (first count : Nat) : List Value :=
  (List.range count).map fun i => f.register (first + i)

/-- The frame with a value in a register. -/
def put (f : Frame) (slot : Nat) (value : Value) : Frame :=
  { f with registers := f.registers.setIfInBounds slot value }

/-- The frame with values in consecutive registers. -/
def putAll (f : Frame) (first : Nat) : List Value → Frame
  | [] => f
  | value :: values => (f.put first value).putAll (first + 1) values

/-- The frame with at least `size` registers, new ones being nil.  It does not grow beyond
`limit`. -/
def ensure? (f : Frame) (size limit : Nat) : Option Frame :=
  if size ≤ f.registers.size then some f
  else if limit < size then none
  else some { f with registers :=
    f.registers ++ Array.replicate (size - f.registers.size) Value.nil }

/-! ## Position -/

/-- A slot moved by a signed distance, in 32 bits. -/
def displace (slot : Nat) (distance : Int) : Nat := ((slot + distance) % 2 ^ 32).toNat

/-- The frame after a jump. -/
def jump (f : Frame) (distance : Int) : Frame := { f with pc := displace f.pc distance }

/-! ## Loops -/

/-- The traversal of the loop that ends at a slot. -/
def iterator? (f : Frame) (slot : Nat) : Option Bridge := f.iterators.lookup slot

/-- The frame without a traversal for a loop. -/
def dropIterator (f : Frame) (slot : Nat) : Frame :=
  { f with iterators := f.iterators.filter fun entry => entry.1 != slot }

/-- The frame with a traversal for a loop, in place of any that it had. -/
def setIterator (f : Frame) (slot : Nat) (bridge : Bridge) : Frame :=
  let f := f.dropIterator slot
  { f with iterators := f.iterators ++ [(slot, bridge)] }

end Frame

end ScriptMachine
