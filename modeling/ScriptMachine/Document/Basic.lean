import ScriptMachine.Bytes

/-!
# Documents

A document is a tree of the kinds that JSON knows.  Integers and doubles are kept apart, so that a
count is written without a fraction and a script's number as the double that it is.  The fields of
an object are sorted by their keys, byte by byte, and each key occurs once.
-/

namespace ScriptMachine

/-- A tree of plain data. -/
inductive Document where
  /-- Nothing. -/
  | null
  /-- A truth value. -/
  | boolean (b : Bool)
  /-- An integer. -/
  | integer (n : Int)
  /-- A double. -/
  | number (x : Float)
  /-- A byte string. -/
  | text (s : Bytes)
  /-- A list. -/
  | list (items : List Document)
  /-- Fields by increasing key. -/
  | object (fields : List (Bytes × Document))

namespace Document

instance : Inhabited Document := ⟨null⟩

/-- A natural number. -/
def nat (n : Nat) : Document := integer n

/-- A text. -/
def ofString (s : String) : Document := text (.ofString s)

/-- Sorted fields with one more; a key that is there already takes the new value. -/
def insertField (key : Bytes) (value : Document) :
    List (Bytes × Document) → List (Bytes × Document)
  | [] => [(key, value)]
  | field :: others =>
    if key < field.1 then (key, value) :: field :: others
    else if key = field.1 then (key, value) :: others
    else field :: insertField key value others

/-- The object with the given fields; of several with one key the last one counts. -/
def ofFields (fields : List (Bytes × Document)) : Document :=
  object (fields.foldl (fun sorted field => insertField field.1 field.2 sorted) [])

/-- The object with the given fields. -/
def ofNamed (fields : List (String × Document)) : Document :=
  ofFields (fields.map fun field => (.ofString field.1, field.2))

end Document

end ScriptMachine
