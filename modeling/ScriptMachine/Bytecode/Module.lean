import ScriptMachine.Bytecode.Image.Basic
import ScriptMachine.Fault

/-!
# Modules

A module is an image made ready to run: its code is an array of slots that jumps can index, and
every instruction carries the constant, the negation or the path of globals that it refers to.  A
module changes only in two ways: breakpoints put another operation in the place of an instruction's
own, and coverage instructions count how often they run.
-/

namespace ScriptMachine

/-! ## Instructions -/

/-- A path of one to three globals, the value at the first being looked up in the environment and
each other one in the value before it. -/
structure ImportPath where
  /-- Count of steps, as the auxiliary word gives it. -/
  count : Nat := 0
  /-- First step. -/
  first : Value := .nil
  /-- Second step. -/
  second : Value := .nil
  /-- Third step. -/
  third : Value := .nil
  /-- The value that was found when the module was loaded. -/
  resolved : Option Value := none

/-- An instruction. -/
structure Instruction where
  /-- The operation that runs. -/
  opcode : Opcode
  /-- The operation that was loaded, and runs once a breakpoint has been passed. -/
  underlying : Opcode
  /-- The instruction word. -/
  word : UInt32
  /-- Its operands. -/
  operands : Operands
  /-- The auxiliary word, zero when there is none. -/
  aux : UInt32
  /-- The constant that it refers to. -/
  constant : Constant := .nil
  /-- Whether its test is negated. -/
  negated : Bool := false
  /-- The path of globals that it refers to. -/
  path : ImportPath := {}
  /-- How often it has run, for coverage, modulo 2^32. -/
  hits : UInt32 := 0

/-- A slot of the code. -/
inductive Slot where
  /-- An instruction. -/
  | instruction (i : Instruction)
  /-- The auxiliary word of the instruction before it. -/
  | aux (word : UInt32)

instance : Inhabited Slot := ⟨.aux 0⟩

/-- What runs when an auxiliary word is taken for an instruction: nothing. -/
def Instruction.ofAux (aux : UInt32) : Instruction :=
  { opcode := .nop, underlying := .nop, word := aux, operands := {}, aux }

/-- The instruction that a slot stands for. -/
def Slot.asInstruction : Slot → Instruction
  | .instruction i => i
  | .aux word => .ofAux word

/-! ## Prototypes and modules -/

/-- A prototype. -/
structure Prototype extends PrototypeHeader where
  /-- The slots of its code. -/
  code : Array Slot
  /-- Its constants. -/
  constants : Array Constant

/-- A module. -/
structure Module where
  /-- The version of the format. -/
  version : UInt8
  /-- The version of the type annotations. -/
  typesVersion : UInt8
  /-- The strings. -/
  strings : List Bytes
  /-- The prototypes. -/
  prototypes : Array Prototype
  /-- The prototype that runs first. -/
  main : Nat

/-- The prototype without code. -/
def Prototype.empty : Prototype :=
  { index := 0, maxStackSize := 0, numParams := 0, numUpvalues := 0, isVararg := false, flags := 0,
    children := [], lineDefined := 0, name := [], lines := none, code := #[], constants := #[] }

namespace Prototype

instance : Inhabited Prototype := ⟨empty⟩

/-- The instruction at a slot, unless the slot is outside the code or holds an auxiliary word. -/
def instruction? (p : Prototype) (slot : Nat) : Option Instruction :=
  match p.code[slot]? with
  | some (.instruction i) => some i
  | _ => none

/-- The operation loaded at a slot of the code. -/
def underlyingAt? (p : Prototype) (slot : Nat) : Option Opcode :=
  p.code[slot]?.map fun s => s.asInstruction.underlying

/-- The operation that runs at a slot of the code. -/
def opcodeAt? (p : Prototype) (slot : Nat) : Option Opcode :=
  p.code[slot]?.map fun s => s.asInstruction.opcode

/-- The prototype with every instruction changed. -/
def mapInstructions (f : Instruction → Instruction) (p : Prototype) : Prototype :=
  { p with code := p.code.map fun
      | .instruction i => .instruction (f i)
      | .aux word => .aux word }

/-- The prototype with the instruction at a slot changed. -/
def modifyInstruction (p : Prototype) (slot : Nat) (f : Instruction → Instruction) : Prototype :=
  { p with code := p.code.modify slot fun
      | .instruction i => .instruction (f i)
      | .aux word => .aux word }

end Prototype

namespace Module

/-- A prototype by its position. -/
def prototype (m : Module) (index : Nat) : Prototype := m.prototypes.getD index .empty

/-- The module with an instruction changed. -/
def modifyInstruction (m : Module) (index slot : Nat) (f : Instruction → Instruction) : Module :=
  { m with prototypes := m.prototypes.modify index fun p => p.modifyInstruction slot f }

/-- The module with a breakpoint set or cleared.  The instruction keeps its own operation, which
runs once the breakpoint has been passed. -/
def setBreakpoint (m : Module) (index slot : Nat) (enabled : Bool) : Except MissingSlot Module :=
  match m.prototypes[index]? with
  | none => .error (.prototype index)
  | some p =>
    match p.instruction? slot with
    | none => .error (.instruction slot index)
    | some _ => .ok <| m.modifyInstruction index slot fun i =>
        { i with opcode := if enabled then .breakpoint else i.underlying }

/-- The module with all counters at zero. -/
def resetCoverage (m : Module) : Module :=
  { m with prototypes := m.prototypes.map (·.mapInstructions fun i => { i with hits := 0 }) }

/-- The module after an instruction has counted a run. -/
def countHit (m : Module) (index slot : Nat) : Module :=
  m.modifyInstruction index slot fun i => { i with hits := i.hits + 1 }

end Module

end ScriptMachine
