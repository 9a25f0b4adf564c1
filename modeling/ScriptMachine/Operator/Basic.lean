import ScriptMachine.Bytes

/-!
# Arithmetic operators

The seven binary operators and the names by which messages refer to them.
-/

namespace ScriptMachine

/-- A binary arithmetic operator. -/
inductive ArithmeticOp where
  /-- Sum. -/
  | add
  /-- Difference. -/
  | sub
  /-- Product. -/
  | mul
  /-- Quotient. -/
  | div
  /-- Remainder of floor division. -/
  | mod
  /-- Power. -/
  | pow
  /-- Floor division. -/
  | idiv
deriving DecidableEq, Repr

namespace ArithmeticOp

/-- The name of an operator in messages. -/
def name : ArithmeticOp → Bytes
  | add => Bytes.ofString "add"
  | sub => Bytes.ofString "sub"
  | mul => Bytes.ofString "mul"
  | div => Bytes.ofString "div"
  | mod => Bytes.ofString "mod"
  | pow => Bytes.ofString "pow"
  | idiv => Bytes.ofString "idiv"

/-- All operators. -/
def all : List ArithmeticOp := [add, sub, mul, div, mod, pow, idiv]

end ArithmeticOp

end ScriptMachine
