import ScriptMachine.Machine.Access

/-!
# Calls and results

Counts of values in an instruction are one more than the count that is meant; zero stands for an
open count, which ends at the register that the last operation with an open count has written.
-/

namespace ScriptMachine

/-- What comes after an instruction. -/
inductive Outcome where
  /-- The instruction at the position of the frame. -/
  | next
  /-- The end of the frame. -/
  | leave (values : List Value)
  /-- A call, and what to do with its results. -/
  | call (function : Value) (args : List Value) (next : Continuation)

namespace Effect

/-- A count of values from a register on: one less than `field`, or up to the top of the frame when
that is zero. -/
def countFrom (first field : Nat) : Effect Nat := fun s =>
  .ok (if field = 0 then (s.frame.top - first + 1).toNat else field - 1) s

/-- The values of consecutive registers; the register file grows to hold them. -/
def values (first count : Nat) : Effect (List Value) := do
  ensure (first + count)
  fun s => .ok (s.frame.slice first count) s

/-- Stores results from a register on: all of them when `wanted` is zero, and else one less than
it, nil being added where there are too few. -/
def storeResults (base wanted : Nat) (results : List Value) : Effect Unit := do
  if wanted = 0 then
    ensure (base + results.length)
    modifyFrame fun f => { f.putAll base results with top := base + results.length - 1 }
  else
    ensure (base + (wanted - 1))
    modifyFrame fun f => f.putAll base (fitTo (wanted - 1) results)

/-- A call: its arguments follow the function. -/
def call (i : Instruction) : Effect Outcome := do
  interrupt .call
  let args ← values (i.operands.a + 1) (← countFrom (i.operands.a + 1) i.operands.b)
  return .call (← register i.operands.a) args (.results i.operands.a i.operands.c)

/-- A return. -/
def ret (i : Instruction) : Effect Outcome := do
  interrupt .ret
  let count ← countFrom i.operands.a i.operands.b
  if count = 0 then return .leave []
  return .leave (← values i.operands.a count)

/-- The extra arguments of the frame into registers. -/
def getVarargs (i : Instruction) : Effect Unit := do
  let varargs := (← get).frame.varargs
  storeResults i.operands.a i.operands.b varargs

/-- Stores values in a table under consecutive integers. -/
def setItems (t : TableId) (first : Nat) : List Value → Effect Unit
  | [] => return
  | value :: others => do
    setKey t (.ofNat first) value
    setItems t (first + 1) others

/-- Consecutive registers into a table, under consecutive integers. -/
def setList (i : Instruction) : Effect Unit := do
  match ← register i.operands.a with
  | .table t =>
    let count ← countFrom i.operands.b i.operands.c
    let items ← if count = 0 then pure [] else values i.operands.b count
    setItems t i.aux.toNat items
    jump 1
  | other => fault (.listTarget other.kind)

/-! ## Method calls -/

/-- Calls the hooks of the call that follows a method look-up, as if it were running. -/
def callHooks : Effect Unit := do
  let saved := (← get).frame.current
  modifyFrame fun f => { f with current := f.pc }
  stepHook .call
  interrupt .call
  modifyFrame fun f => { f with current := saved }

/-- The call that follows, when the settings offer method calls to the host. -/
def offeredCall? : Effect (Option Instruction) := do
  let settings ← settings
  if !settings.useNativeNamecall then return none
  let p ← prototype
  let slot := (← get).frame.pc
  match p.code[slot]?.map Slot.asInstruction with
  | some i => return if i.opcode = .call then some i else none
  | none => return none

/-- Offers a method call to the host.  If it is taken, its results are stored and the call that
follows is passed over. -/
def offerNamecall (method : Value) : Effect Bool := do
  let settings ← settings
  match settings.namecallHandler, ← offeredCall? with
  | some handler, some callInst =>
    if settings.namecallReinvokesHooks then callHooks
    let base := callInst.operands.a
    let args ← values (base + 1) (← countFrom (base + 1) callInst.operands.b)
    match ← perform (handler method.toText args) with
    | none => return false
    | some results =>
      if !settings.namecallReinvokesHooks then callHooks
      modifyFrame fun f => { f with current := f.pc, pc := f.pc + 1 }
      storeResults base callInst.operands.c results
      return true
  | _, _ => return false

/-- A method look-up: the object goes where the call expects its first argument. -/
def namecall (i : Instruction) : Effect Unit := do
  let object ← register i.operands.b
  let method := i.constant.value
  put (i.operands.a + 1) object
  jump 1
  if !(← offerNamecall method) then
    put i.operands.a (← getField object method)

end Effect

end ScriptMachine
