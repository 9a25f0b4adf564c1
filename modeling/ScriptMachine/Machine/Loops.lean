import ScriptMachine.Machine.Calls

/-!
# Loops

A numeric loop keeps its limit, its step and its index in three consecutive registers.  A generic
loop keeps a function, a state and a control value there, and its variables follow them; when the
first register holds a table instead of a function, a traversal of that table drives the loop.
-/

namespace ScriptMachine

/-- Whether a numeric loop goes on. -/
def loopContinues (index limit step : Float) : Bool :=
  if step > 0 then index ≤ limit else index ≥ limit

namespace Effect

/-! ## Numeric loops -/

/-- A number of a numeric loop, read from what a register holds. -/
def loopNumber (slot : Nat) (which : LoopNumber) : Effect Float := do
  let value ← register slot
  match value.toNumber? with
  | some n => return n
  | none => fault (.loopNumber which value.kind)

/-- Starts a numeric loop: jumps behind it when it has no rounds. -/
def numericPrep (i : Instruction) : Effect Unit := do
  let a := i.operands.a
  let limit ← loopNumber a .limit
  let step ← loopNumber (a + 1) .step
  let index ← loopNumber (a + 2) .start
  put a (.number limit)
  put (a + 1) (.number step)
  put (a + 2) (.number index)
  if !loopContinues index limit step then jump i.operands.d

/-- The number in a register that a numeric loop has set up. -/
def numberIn (slot : Nat) : Effect Float := do
  match ← register slot with
  | .number n => return n
  | _ => throw .confusion

/-- Continues a numeric loop: jumps back when it has another round. -/
def numericLoop (i : Instruction) : Effect Unit := do
  interrupt .numericLoop
  let a := i.operands.a
  let limit ← numberIn a
  let step ← numberIn (a + 1)
  let index := (← numberIn (a + 2)) + step
  put (a + 2) (.number index)
  if loopContinues index limit step then jump i.operands.d

/-! ## Generic loops -/

/-- The count of variables of the loop that an instruction ends. -/
def loopArity (i : Instruction) : Effect Nat :=
  match i.constant with
  | .number n => pure (Number.truncate n).toNat
  | _ => throw .confusion

/-- Starts a loop over an iterator function. -/
def functionPrep (i : Instruction) : Effect Unit := do
  let iterated ← register i.operands.a
  if iterated.isFunction then jump i.operands.d
  else fault (.notIterable iterated.kind)

/-- Starts a generic loop: what is no function gets a traversal. -/
def genericPrep (i : Instruction) : Effect Unit := do
  let iterated ← register i.operands.a
  if (← settings).generalizedIteration && !iterated.isFunction then
    let p ← prototype
    let loopSlot := Frame.displace (← get).frame.pc i.operands.d
    match p.code[loopSlot]?.map Slot.asInstruction with
    | some loop =>
      if loop.opcode = .genericLoop then
        let bridge ← ofExcept (Bridge.forValue iterated (← loopArity loop))
        modifyFrame fun f => f.setIterator loopSlot bridge
      else fault (.loopTarget loopSlot)
    | none => fault (.loopTarget loopSlot)
  jump i.operands.d

/-- Takes the results of an iterator function as a round of its loop: the loop ends on nil, and
else its control value is the first result. -/
def storeRound (base arity : Nat) (distance : Int) (results : List Value) : Effect Unit := do
  modifyFrame fun f => f.putAll (base + 3) (fitTo arity results)
  let control ← register (base + 3)
  if control.isNil then jump 1
  else
    put (base + 2) control
    jump distance

/-- Advances the traversal that drives the loop at the current slot. -/
def stepIterator (iterated : Value) : Effect (Option (List Value)) := fun s =>
  match s.frame.iterator? s.frame.current with
  | none => .error (.fault (.notIterable iterated.kind)) s
  | some bridge =>
    let (bridge, round) := bridge.step s.world.heap
    let s := { s with frame := s.frame.setIterator s.frame.current bridge }
    match round with
    | .ok round => .ok round s
    | .error f => .error (.fault f) s

/-- Continues a generic loop. -/
def genericLoop (i : Instruction) : Effect Outcome := do
  interrupt .genericLoop
  let a := i.operands.a
  let arity ← loopArity i
  ensure (a + 3 + arity)
  modifyFrame fun f => { f with top := a + 6 }
  let iterated ← register a
  if !(← settings).generalizedIteration || iterated.isFunction then
    let args := [← register (a + 1), ← register (a + 2)]
    return .call iterated args (.iteration a arity i.operands.d)
  match ← stepIterator iterated with
  | none =>
    modifyFrame fun f => f.dropIterator f.current
    jump 1
  | some round =>
    modifyFrame fun f => f.putAll (a + 3) round
    put (a + 2) (← register (a + 3))
    jump i.operands.d
  return .next

end Effect

end ScriptMachine
