import ScriptMachine.Number.Decimal
import ScriptMachine.Number.Numeral

/-!
# Values

A value is nil, a boolean, a number, a string, a vector, or the identity of a table or function
that lives in the machine's store.  Two values are *raw-equal* when they have the same kind and
the same content; numbers compare as IEEE numbers do, so the zeros are equal and a NaN is equal to
nothing.
-/

namespace ScriptMachine

/-- The identity of a table. -/
structure TableId where
  /-- Position in the store of tables. -/
  index : Nat
deriving DecidableEq, Hashable, Repr, Inhabited

/-- The identity of a function. -/
structure FunctionId where
  /-- Position in the store of functions. -/
  index : Nat
deriving DecidableEq, Hashable, Repr, Inhabited

/-! ## Vectors -/

/-- Four single-precision components; vectors of three have a zero in the last one. -/
structure Vector4 where
  /-- First component. -/
  x : Float32
  /-- Second component. -/
  y : Float32
  /-- Third component. -/
  z : Float32
  /-- Fourth component. -/
  w : Float32
deriving DecidableEq

namespace Vector4

/-- The vector of the images of all components. -/
def map (f : Float32 → Float32) (v : Vector4) : Vector4 := ⟨f v.x, f v.y, f v.z, f v.w⟩

/-- The vector made component by component out of two. -/
def zipWith (f : Float32 → Float32 → Float32) (v u : Vector4) : Vector4 :=
  ⟨f v.x u.x, f v.y u.y, f v.z u.z, f v.w u.w⟩

/-- The vector with one number, narrowed, in every component. -/
def splat (n : Float) : Vector4 := let c := Number.narrow n; ⟨c, c, c, c⟩

/-- The components in order. -/
def toList (v : Vector4) : List Float32 := [v.x, v.y, v.z, v.w]

/-- Equality of all components as IEEE numbers. -/
def rawEq (v u : Vector4) : Bool := v.x == u.x && v.y == u.y && v.z == u.z && v.w == u.w

end Vector4

/-! ## Kinds -/

/-- The kinds of values. -/
inductive Kind where
  /-- The absent value. -/
  | nil
  /-- Truth values. -/
  | boolean
  /-- Doubles. -/
  | number
  /-- Byte strings. -/
  | string
  /-- Vectors of singles. -/
  | vector
  /-- Tables, by identity. -/
  | table
  /-- Functions, by identity. -/
  | function
deriving DecidableEq, Repr

/-- The name of a kind in messages and for the `type` function. -/
def Kind.name : Kind → Bytes
  | .nil => Bytes.ofString "nil"
  | .boolean => Bytes.ofString "boolean"
  | .number => Bytes.ofString "number"
  | .string => Bytes.ofString "string"
  | .vector => Bytes.ofString "vector"
  | .table => Bytes.ofString "table"
  | .function => Bytes.ofString "function"

/-- A value of the machine. -/
inductive Value where
  /-- The absent value. -/
  | nil
  /-- A truth value. -/
  | boolean (b : Bool)
  /-- A double. -/
  | number (n : Float)
  /-- A byte string. -/
  | string (s : Bytes)
  /-- A vector. -/
  | vector (v : Vector4)
  /-- A table, by identity. -/
  | table (t : TableId)
  /-- A function, by identity. -/
  | function (f : FunctionId)
deriving DecidableEq

instance : Inhabited Value := ⟨.nil⟩

namespace Value

/-- The kind of a value. -/
def kind : Value → Kind
  | .nil => .nil
  | .boolean _ => .boolean
  | .number _ => .number
  | .string _ => .string
  | .vector _ => .vector
  | .table _ => .table
  | .function _ => .function

/-- The name of a value's kind. -/
def kindName (v : Value) : Bytes := v.kind.name

/-- Whether the value is nil. -/
def isNil : Value → Bool
  | .nil => true
  | _ => false

/-- Whether the value is a function. -/
def isFunction : Value → Bool
  | .function _ => true
  | _ => false

/-- Whether a condition on the value holds: all but nil and false do. -/
def truthy : Value → Bool
  | .nil => false
  | .boolean b => b
  | _ => true

/-- The value of an integer. -/
def ofInt (n : Int) : Value := .number (Number.ofInt n)

/-- The value of a natural number. -/
def ofNat (n : Nat) : Value := .number (Number.ofNat n)

/-- The string value of a text. -/
def ofString (s : String) : Value := .string (Bytes.ofString s)

/-- Raw equality: by content, and by identity for tables and functions. -/
def rawEq : Value → Value → Bool
  | .nil, .nil => true
  | .boolean a, .boolean b => a == b
  | .number a, .number b => a == b
  | .string a, .string b => a == b
  | .vector a, .vector b => a.rawEq b
  | .table a, .table b => a == b
  | .function a, .function b => a == b
  | _, _ => false

/-- The number that a value is or, as a string, stands for. -/
def toNumber? : Value → Option Float
  | .number n => some n
  | .string s => Number.ofNumeral? s
  | _ => none

/-- The text of the identity of a table or function. -/
def identityText (index : Nat) : Bytes :=
  Bytes.ofString "0x" ++ (Nat.toDigits 16 (index + 1)).map Bytes.ofChar

/-- The text of a value, as scripts and the command line print it. -/
def toText : Value → Bytes
  | .nil => Bytes.ofString "nil"
  | .boolean true => Bytes.ofString "true"
  | .boolean false => Bytes.ofString "false"
  | .number n => Number.text n
  | .string s => s
  | .vector v =>
    Bytes.join (Bytes.ofString ", ") ([v.x, v.y, v.z].map fun c => Number.text (Number.widen c))
  | .table t => Bytes.ofString "table: " ++ identityText t.index
  | .function f => Bytes.ofString "function: " ++ identityText f.index

/-- How a key or name is quoted in a message: strings between apostrophes, anything else by the
name of its kind. -/
def describe : Value → Bytes
  | .string s => Bytes.ofChar '\'' :: (s ++ [Bytes.ofChar '\''])
  | v => v.kindName

end Value

/-- The value at a position of a list of arguments, nil behind its end. -/
def argument (args : List Value) (i : Nat) : Value := args.getD i .nil

end ScriptMachine
