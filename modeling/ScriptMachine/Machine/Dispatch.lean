import ScriptMachine.Machine.Closures
import ScriptMachine.Machine.Loops
import ScriptMachine.Operator.Evaluation

/-!
# Running an instruction

`execute` says what each operation does.  `dispatch` runs the instruction at the position of the
frame: it is traced, the step hook sees it, a breakpoint gives way to the operation that it stands
in for unless its hook ends the frame, and then the operation runs.
-/

namespace ScriptMachine

namespace Effect

/-! ## Families of operations -/

/-- Stores the result of an operator on two values. -/
def arithmetic (op : ArithmeticOp) (i : Instruction) (left right : Effect Value) :
    Effect Unit := do
  put i.operands.a (← ofExcept (op.eval (← left) (← right)))

/-- An operator on two registers. -/
def onRegisters (op : ArithmeticOp) (i : Instruction) : Effect Unit :=
  arithmetic op i (register i.operands.b) (register i.operands.c)

/-- An operator on a register and a constant. -/
def withConstant (op : ArithmeticOp) (i : Instruction) : Effect Unit :=
  arithmetic op i (register i.operands.b) (pure i.constant.value)

/-- An operator on a constant and a register. -/
def fromConstant (op : ArithmeticOp) (i : Instruction) : Effect Unit :=
  arithmetic op i (pure i.constant.value) (register i.operands.c)

/-- Stores the first value when its truth is the given one, and else the second. -/
def select (truth : Bool) (i : Instruction) (second : Effect Value) : Effect Unit := do
  let first ← register i.operands.b
  if first.truthy == truth then put i.operands.a first else put i.operands.a (← second)

/-- Jumps when a condition holds, and else passes over the auxiliary word. -/
def branch (i : Instruction) (condition : Bool) : Effect Unit :=
  jump (if condition then i.operands.d else 1)

/-- Jumps when a test of two registers, the second named by the auxiliary word, comes out as
expected. -/
def compare (i : Instruction) (expected : Bool) (test : Value → Value → Except Fault Bool) :
    Effect Unit := do
  if (← get).frame.registers.size ≤ i.aux.toNat then fault (.registerRange i.aux.toNat)
  let outcome ← ofExcept (test (← register i.operands.a) (← register i.aux.toNat))
  branch i (outcome == expected)

/-- Jumps when a test of a register against the constant comes out, or does not when the
instruction negates it. -/
def compareConstant (i : Instruction) (test : Value → Bool) : Effect Unit := do
  branch i (test (← register i.operands.a) != i.negated)

/-- The sum of hits of the instruction that runs goes up. -/
def countHit : Effect Unit := do
  let f := (← get).frame
  modifyWorld fun w => w.modifyVm f.vm fun vm =>
    { vm with module := vm.module.countHit f.prototype f.current }

/-! ## All operations -/

/-- What the operations do that only go on to the next instruction, or jump. -/
def executePlain (op : Opcode) (i : Instruction) : Effect Unit := do
  let a := i.operands.a
  let b := i.operands.b
  let c := i.operands.c
  let d := i.operands.d
  match op with
  | .nop | .breakpoint | .prepVarargs | .fastCall | .fastCall1 => return
  | .fastCall2 | .fastCall2Constant | .fastCall3 => jump 1
  | .nativeCall => fault .nativeCall
  | .capture => fault .strayCapture
  | .coverage => countHit
  -- constants and registers
  | .loadNil => put a .nil
  | .loadBoolean => put a (.boolean (b != 0)); jump c
  | .loadInteger => put a (.ofInt d)
  | .loadConstant => put a i.constant.value
  | .loadConstantExtended => put a i.constant.value; jump 1
  | .move => put a (← register b)
  -- globals and captured variables
  | .getGlobal => put a (← getGlobal i.constant.value); jump 1
  | .setGlobal => setGlobal i.constant.value (← register a); jump 1
  | .getImport => put a (← getImport i.path); jump 1
  | .getUpvalue => put a (← readCell (← upvalue b))
  | .setUpvalue => writeCell (← upvalue b) (← register a)
  | .closeUpvalues => closeFrom a
  -- tables
  | .getTable => put a (← getField (← register b) (← register c))
  | .setTable => setField (← register b) (← register c) (← register a)
  | .getField => put a (← getField (← register b) i.constant.value); jump 1
  | .setField => setField (← register b) i.constant.value (← register a); jump 1
  | .getItem => put a (← getField (← register b) (.ofNat (c + 1)))
  | .setItem => setField (← register b) (.ofNat (c + 1)) (← register a)
  | .newTable => put a (.table (← createTable)); jump 1
  | .dupTable => put a (.table (← createTable))
  | .setList => setList i
  -- closures
  | .newClosure => newClosure i
  | .dupClosure => dupClosure i
  -- jumps
  | .jump => jump d
  | .jumpBack => interrupt .jumpBack; jump d
  | .jumpExtended => interrupt .jumpExtended; jump i.operands.e
  | .jumpIf => if (← register a).truthy then jump d
  | .jumpIfNot => if !(← register a).truthy then jump d
  | .jumpIfEqual => compare i true fun x y => .ok (x.rawEq y)
  | .jumpIfLessEqual => compare i true Value.lessEqual
  | .jumpIfLess => compare i true Value.lessThan
  | .jumpIfNotEqual => compare i false fun x y => .ok (x.rawEq y)
  | .jumpIfNotLessEqual => compare i false Value.lessEqual
  | .jumpIfNotLess => compare i false Value.lessThan
  | .jumpIfNil => compareConstant i Value.isNil
  | .jumpIfBoolean | .jumpIfNumber | .jumpIfString =>
    compareConstant i fun value => value.rawEq i.constant.value
  -- operators
  | .add => onRegisters .add i
  | .sub => onRegisters .sub i
  | .mul => onRegisters .mul i
  | .div => onRegisters .div i
  | .mod => onRegisters .mod i
  | .pow => onRegisters .pow i
  | .idiv => onRegisters .idiv i
  | .addConstant => withConstant .add i
  | .subConstant => withConstant .sub i
  | .mulConstant => withConstant .mul i
  | .divConstant => withConstant .div i
  | .modConstant => withConstant .mod i
  | .powConstant => withConstant .pow i
  | .idivConstant => withConstant .idiv i
  | .subFromConstant => fromConstant .sub i
  | .divFromConstant => fromConstant .div i
  | .and => select false i (register c)
  | .or => select true i (register c)
  | .andConstant => select false i (pure i.constant.value)
  | .orConstant => select true i (pure i.constant.value)
  | .not => put a (.boolean !(← register b).truthy)
  | .minus => put a (← ofExcept (← register b).negate)
  | .length =>
    let value ← register b
    put a (← ofExcept (value.length (← get).world.heap))
  | .concat =>
    let parts := (← get).frame.slice b (c + 1 - b)
    put a (← ofExcept (Value.concat parts))
  -- calls and loops
  | .namecall => namecall i
  | .getVarargs => getVarargs i
  | .numericPrep => numericPrep i
  | .numericLoop => numericLoop i
  | .genericPrep => genericPrep i
  | .genericPrepIndexed | .genericPrepNext => functionPrep i
  | .call | .ret | .genericLoop => return

/-- What every operation does. -/
def execute (op : Opcode) (i : Instruction) : Effect Outcome :=
  match op with
  | .call => call i
  | .ret => ret i
  | .genericLoop => genericLoop i
  | _ => do executePlain op i; return .next

/-! ## Dispatch -/

/-- The line that traces an instruction. -/
def traceLine (name : Bytes) (slot : Nat) (i : Instruction) : Bytes :=
  Bytes.concat
    [.ofString "[trace] ", name, .ofString "#", .ofNat slot, .ofString " ",
      Bytes.padRight 14 i.opcode.name, .ofString " A=", .ofNat i.operands.a, .ofString " B=",
      .ofNat i.operands.b, .ofString " C=", .ofNat i.operands.c, .ofString " D=",
      .ofInt i.operands.d, .ofString " aux=", .ofNat i.aux.toNat, .ofString "\n"]

/-- Traces an instruction, if the settings say so and the limit has not been reached. -/
def trace (i : Instruction) : Effect Unit := do
  let vm ← vm
  let f := (← get).frame
  if vm.settings.trace && (vm.settings.traceLimit == 0 || vm.traced < vm.settings.traceLimit) then
    let line := traceLine (vm.prototype f.prototype).name f.current i
    modifyWorld fun w =>
      { w.modifyVm f.vm fun vm => { vm with traced := vm.traced + 1 } with
        traceLines := w.traceLines.push line }

/-- Passes a breakpoint: the hook may end the frame. -/
def passBreakpoint : Effect (Option (List Value)) := do
  match (← settings).hooks.breakpoint with
  | some hook => perform (hook (← context .breakpoint))
  | none => return none

/-- Runs an instruction at the position of the frame. -/
def dispatch (i : Instruction) : Effect Outcome := do
  modifyFrame fun f => { f with current := f.pc, pc := f.pc + 1 }
  trace i
  stepHook i.opcode
  if i.opcode = .breakpoint then
    match ← passBreakpoint with
    | some values => return .leave values
    | none => execute i.underlying i
  else execute i.opcode i

end Effect

end ScriptMachine
