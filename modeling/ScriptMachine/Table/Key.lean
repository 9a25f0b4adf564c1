import ScriptMachine.Value

/-!
# Table keys

A key is the part of a value that decides raw equality: two values have the same key exactly when
they are raw-equal.  Nil, NaN and vectors with a NaN component are not even equal to themselves and
have no key.
-/

namespace ScriptMachine

/-- The identity of a value among the keys of a table. -/
inductive Key where
  /-- A truth value. -/
  | boolean (b : Bool)
  /-- A number by its bits, both zeros being `0`. -/
  | number (bits : UInt64)
  /-- A byte string. -/
  | string (s : Bytes)
  /-- A vector by the bits of its components, both zeros being `0`. -/
  | vector (x y z w : UInt32)
  /-- A table. -/
  | table (t : TableId)
  /-- A function. -/
  | function (f : FunctionId)
deriving DecidableEq, Hashable

namespace Key

/-- The bits that stand for a number; none for a NaN. -/
def bits? (n : Float) : Option UInt64 :=
  if n.isNaN then none else if n == 0 then some 0 else some n.toBits

/-- The bits that stand for a component; none for a NaN. -/
def bits32? (n : Float32) : Option UInt32 :=
  if n.isNaN then none else if n == 0 then some 0 else some n.toBits

/-- The key of a value. -/
def ofValue? : Value → Option Key
  | .nil => none
  | .boolean b => some (.boolean b)
  | .number n => (bits? n).map .number
  | .string s => some (.string s)
  | .vector v =>
    match bits32? v.x, bits32? v.y, bits32? v.z, bits32? v.w with
    | some x, some y, some z, some w => some (.vector x y z w)
    | _, _, _, _ => none
  | .table t => some (.table t)
  | .function f => some (.function f)

end Key

/-- The position in an array part that a value names, if it is such an integer. -/
def Value.position? : Value → Option Nat
  | .number n => Number.index? n
  | _ => none

end ScriptMachine
