import ScriptMachine.Machine.State

/-!
# Making closures

The instruction that makes a closure is followed by one capture instruction for every upvalue of
the new closure.  A capture copies a register, shares one, or hands on an upvalue of the closure
that runs.  Closures made from a constant share no registers: a shared register becomes a fresh
variable.
-/

namespace ScriptMachine

namespace Effect

/-- The cell that a capture instruction names. -/
def captureOf (i : Instruction) (shares : Bool) : Effect CellId :=
  match i.operands.a with
  | 0 => do closedCell (← register i.operands.b)
  | 1 => if shares then captureRegister i.operands.b else closedCell .nil
  | 2 => upvalue i.operands.b
  | other => fault (.unknownCapture other)

/-- The next instruction, when it is a capture; the position moves past it. -/
def nextCapture? : Effect (Option Instruction) := do
  let p ← prototype
  let slot := (← get).frame.pc
  match p.code[slot]?.map Slot.asInstruction with
  | some i =>
    if i.opcode = .capture then
      modifyFrame fun f => { f with pc := f.pc + 1 }
      return some i
    else return none
  | none => return none

/-- The cells that the last `left` captures of a new closure name. -/
def captures (child : Prototype) (shares : Bool) : Nat → Effect (List CellId)
  | 0 => return []
  | left + 1 => do
    match ← nextCapture? with
    | none =>
      let count := child.numUpvalues.toNat
      fault (.missingCapture (count - left) count child.name)
    | some i =>
      let first ← captureOf i shares
      return first :: (← captures child shares left)

/-- Makes a closure of a prototype of the module and stores it in a register. -/
def makeClosure (target index : Nat) (shares : Bool) : Effect Unit := do
  let child := (← vm).prototype index
  let cells ← captures child shares child.numUpvalues.toNat
  put target (.function (← createClosure index cells.toArray))

/-- Makes a closure of a child of the prototype that runs. -/
def newClosure (i : Instruction) : Effect Unit := do
  let children := (← prototype).children
  match i.operands.d with
  | .ofNat n =>
    match children[n]? with
    | some index => makeClosure i.operands.a index true
    | none => fault (.childRange i.operands.d)
  | .negSucc _ => fault (.childRange i.operands.d)

/-- Makes a closure of the prototype that a constant names. -/
def dupClosure (i : Instruction) : Effect Unit := do
  match i.constant with
  | .closure index =>
    if index < (← vm).module.prototypes.size then makeClosure i.operands.a index false
    else fault .notClosureConstant
  | _ => fault .notClosureConstant

end Effect

end ScriptMachine
