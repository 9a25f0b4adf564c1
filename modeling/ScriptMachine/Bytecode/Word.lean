import ScriptMachine.Bytecode.Opcode

/-!
# Instruction words

An instruction is a word of 32 bits: the number of its operation in the low byte, and operand
fields above it.  The fields overlap; the format of the operation says which of them it has.
-/

namespace ScriptMachine

/-! ## Fields of a word -/

namespace Word

/-- The number of the operation. -/
def opcodeNumber (w : UInt32) : Nat := w.toNat % 256

/-- The second byte. -/
def fieldA (w : UInt32) : Nat := w.toNat / 2 ^ 8 % 256

/-- The third byte. -/
def fieldB (w : UInt32) : Nat := w.toNat / 2 ^ 16 % 256

/-- The fourth byte. -/
def fieldC (w : UInt32) : Nat := w.toNat / 2 ^ 24

/-- The upper half as a signed number. -/
def fieldD (w : UInt32) : Int := Int.bmod (w.toNat / 2 ^ 16) (2 ^ 16)

/-- The upper three bytes as a signed number. -/
def fieldE (w : UInt32) : Int := Int.bmod (w.toNat / 2 ^ 8) (2 ^ 24)

end Word

/-! ## Operands -/

/-- The operands of an instruction; those that its format lacks are zero. -/
structure Operands where
  /-- First byte operand. -/
  a : Nat := 0
  /-- Second byte operand. -/
  b : Nat := 0
  /-- Third byte operand. -/
  c : Nat := 0
  /-- Signed 16-bit operand. -/
  d : Int := 0
  /-- Signed 24-bit operand. -/
  e : Int := 0
deriving DecidableEq, Repr

/-- The operands that a word holds in a format. -/
def OperandFormat.operands (format : OperandFormat) (w : UInt32) : Operands :=
  match format with
  | .none => {}
  | .a => { a := Word.fieldA w }
  | .ab => { a := Word.fieldA w, b := Word.fieldB w }
  | .abc => { a := Word.fieldA w, b := Word.fieldB w, c := Word.fieldC w }
  | .ad => { a := Word.fieldA w, d := Word.fieldD w }
  | .ae => { e := Word.fieldE w }

/-! ## Fields of an auxiliary word -/

namespace AuxWord

/-- The high bit, which negates a test. -/
def negated (aux : UInt32) : Bool := 2 ^ 31 ≤ aux.toNat

/-- The low bit. -/
def flag (aux : UInt32) : Bool := aux.toNat % 2 == 1

/-- The low four bits. -/
def count (aux : UInt32) : Nat := aux.toNat % 16

/-- The low 24 bits. -/
def index (aux : UInt32) : Nat := aux.toNat % 2 ^ 24

/-- The count of steps of a path of globals. -/
def pathLength (aux : UInt32) : Nat := aux.toNat / 2 ^ 30

/-- The constants that a path of globals could name, in order. -/
def pathIndices (aux : UInt32) : Nat × Nat × Nat :=
  (aux.toNat / 2 ^ 20 % 2 ^ 10, aux.toNat / 2 ^ 10 % 2 ^ 10, aux.toNat % 2 ^ 10)

end AuxWord

end ScriptMachine
