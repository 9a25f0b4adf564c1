import ScriptMachine.Table.Basic

/-!
# The heap

The heap holds the tables that values refer to by identity.  Tables are only ever added, so an
identity stays valid; one that the heap has never given out stands for an empty table.
-/

namespace ScriptMachine

/-- The store of tables. -/
structure Heap where
  /-- The tables by the index of their identity. -/
  tables : Array Table := #[]

namespace Heap

instance : Inhabited Heap := ⟨{}⟩

/-- The contents of a table. -/
def table (heap : Heap) (t : TableId) : Table := heap.tables.getD t.index .empty

/-- The heap with another content of a table. -/
def replace (heap : Heap) (t : TableId) (content : Table) : Heap :=
  { heap with tables := heap.tables.setIfInBounds t.index content }

/-- A new table with the given content. -/
def create (heap : Heap) (content : Table) : TableId × Heap :=
  (⟨heap.tables.size⟩, { heap with tables := heap.tables.push content })

/-- The value at a key of a table. -/
def get (heap : Heap) (t : TableId) (key : Value) : Value := (heap.table t).get key

/-- The heap with a value at a key of a table. -/
def set (heap : Heap) (t : TableId) (key value : Value) : Except Fault Heap :=
  match heap.tables[t.index]? with
  | none => .ok heap
  | some content =>
    let heap := { heap with tables := heap.tables.setIfInBounds t.index .empty }
    (content.set key value).map (heap.replace t)

/-- The pair that follows a key in the traversal of a table. -/
def next (heap : Heap) (t : TableId) (key : Value) : Except Fault (Option (Value × Value)) :=
  (heap.table t).next key

/-- The border of a table. -/
def length (heap : Heap) (t : TableId) : Nat := (heap.table t).length

end Heap

end ScriptMachine
