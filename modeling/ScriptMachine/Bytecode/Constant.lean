import ScriptMachine.Value

/-!
# Constants

A prototype carries the constants that its instructions refer to.  Those of plain kinds have a
value; an import path, the shape of a table and a closure are descriptions, and their value is
nil.
-/

namespace ScriptMachine

/-- A constant of a prototype. -/
inductive Constant where
  /-- Nil. -/
  | nil
  /-- A truth value. -/
  | boolean (b : Bool)
  /-- A number. -/
  | number (n : Float)
  /-- A string, or none when the reference to it was zero. -/
  | string (s : Option Bytes)
  /-- A path of globals, packed. -/
  | importPath (id : UInt32)
  /-- The shape of a table: the constants that are its keys. -/
  | table (keys : List Nat)
  /-- A closure without references, by its prototype. -/
  | closure (index : Nat)
  /-- A vector, or what the host makes of it. -/
  | vector (value : Value)
deriving DecidableEq

instance : Inhabited Constant := ⟨.nil⟩

namespace Constant

/-- The value of a constant. -/
def value : Constant → Value
  | nil | importPath _ | table _ | closure _ | string none => .nil
  | boolean b => .boolean b
  | number n => .number n
  | string (some s) => .string s
  | vector v => v

/-- The name of a constant's kind in listings. -/
def kindName : Constant → String
  | nil => "nil"
  | boolean _ => "boolean"
  | number _ => "number"
  | string _ => "string"
  | importPath _ => "import"
  | table _ => "table"
  | closure _ => "closure"
  | vector _ => "vector"

/-- Equality of constants, their values compared as raw values are. -/
def rawEq : Constant → Constant → Bool
  | importPath a, importPath b => a == b
  | table a, table b => a == b
  | closure a, closure b => a == b
  | a, b => a.kindName == b.kindName && a.value.rawEq b.value

end Constant

end ScriptMachine
