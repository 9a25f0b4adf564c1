import ScriptMachine.Fault
import ScriptMachine.Heap

/-!
# Operators on values

Arithmetic works on numbers and on strings that are numerals; sums, differences, products and
quotients also work on vectors, component by component in double precision and then narrowed.  A
product or quotient may join a vector and a number, but not a vector and a string.  Numbers and
strings have an order, each among themselves.
-/

namespace ScriptMachine

namespace ArithmeticOp

/-- The operator on numbers.  The remainder is what floor division leaves. -/
def onNumbers : ArithmeticOp → Float → Float → Float
  | add, a, b => a + b
  | sub, a, b => a - b
  | mul, a, b => a * b
  | div, a, b => a / b
  | mod, a, b => a - Number.floor (a / b) * b
  | pow, a, b => Float.pow a b
  | idiv, a, b => Number.floor (a / b)

/-- The operator on vectors, component by component. -/
def onVectors (op : ArithmeticOp) (a b : Vector4) : Vector4 :=
  a.zipWith (fun x y => Number.narrow (op.onNumbers (Number.widen x) (Number.widen y))) b

/-- Whether two vectors may be joined. -/
def joinsVectors : ArithmeticOp → Bool
  | add | sub | mul | div => true
  | _ => false

/-- Whether a vector and a number may be joined. -/
def scalesVectors : ArithmeticOp → Bool
  | mul | div => true
  | _ => false

/-- The operator on the numbers that two values stand for. -/
def onNumerals (op : ArithmeticOp) (a b : Value) : Except Fault Value :=
  match a.toNumber?, b.toNumber? with
  | some x, some y => .ok (.number (op.onNumbers x y))
  | _, _ => .error (.arithmetic op a.kind b.kind)

/-- The operator on two values. -/
def eval (op : ArithmeticOp) (a b : Value) : Except Fault Value :=
  match a, b with
  | .number x, .number y => .ok (.number (op.onNumbers x y))
  | .vector v, .vector u =>
    if op.joinsVectors then .ok (.vector (op.onVectors v u)) else op.onNumerals a b
  | .vector v, .number n =>
    if op.scalesVectors then .ok (.vector (op.onVectors v (.splat n))) else op.onNumerals a b
  | .number n, .vector v =>
    if op.scalesVectors then .ok (.vector (op.onVectors (.splat n) v)) else op.onNumerals a b
  | _, _ => op.onNumerals a b

end ArithmeticOp

namespace Value

/-- The negative of a value. -/
def negate (v : Value) : Except Fault Value :=
  match v with
  | .number n => .ok (.number (-n))
  | .vector u => .ok (.vector (u.map fun c => -c))
  | _ =>
    match v.toNumber? with
    | some n => .ok (.number (-n))
    | none => .error (.negation v.kind)

/-- Whether a value comes before another. -/
def lessThan (a b : Value) : Except Fault Bool :=
  match a, b with
  | .number x, .number y => .ok (x < y)
  | .string s, .string t => .ok (s < t)
  | _, _ => .error (.comparison a.kind b.kind)

/-- Whether a value comes before another or is equal to it. -/
def lessEqual (a b : Value) : Except Fault Bool :=
  match a, b with
  | .number x, .number y => .ok (x ≤ y)
  | .string s, .string t => .ok (s ≤ t)
  | _, _ => .error (.comparison a.kind b.kind)

/-- The length of a string in bytes, or the border of a table. -/
def length (heap : Heap) (v : Value) : Except Fault Value :=
  match v with
  | .string s => .ok (.ofNat s.length)
  | .table t => .ok (.ofNat (heap.length t))
  | _ => .error (.length v.kind)

/-- What a value contributes to a concatenation. -/
def piece (v : Value) : Except Fault Bytes :=
  match v with
  | .string s => .ok s
  | .number n => .ok (Number.text n)
  | _ => .error (.concatenation v.kind)

/-- The concatenation of strings and numbers. -/
def concat (values : List Value) : Except Fault Value :=
  (values.mapM piece).map fun pieces => .string pieces.flatten

end Value

end ScriptMachine
