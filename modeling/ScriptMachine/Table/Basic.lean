import ScriptMachine.Fault
import ScriptMachine.Table.Key
import Std.Data.HashMap

/-!
# Tables

A table maps keys to values and remembers in which order its keys came.  The values at `1`, `2`,
… up to a border are kept in an array; all other pairs are entries in order of insertion, found
through an index of keys.

* An entry whose value is nil is a *tombstone*: it keeps its place, so that a traversal that clears
  fields can go on, until a new key makes the entries too sparse and they are compacted.
* A value set behind the border moves the border, and following integers move over from the
  entries.
* The array never ends in nil, so that its size is a border.

A vector with a NaN component may be set, but is equal to no key, itself included: it gets an entry
that no index leads to.
-/

namespace ScriptMachine

/-- A table: an array part, entries in insertion order with their index, and the count of entries
that are not tombstones. -/
structure Table where
  /-- The values at the keys `1`, `2`, …. -/
  array : Array Value := #[]
  /-- All other pairs in order of insertion, tombstones included. -/
  entries : Array (Value × Value) := #[]
  /-- The position of a key's entry. -/
  index : Std.HashMap Key Nat := {}
  /-- Count of entries with a value. -/
  live : Nat := 0

namespace Table

/-- The table without entries. -/
def empty : Table := {}

instance : Inhabited Table := ⟨empty⟩

/-- Room made in advance: capacity is no part of what a table holds. -/
def reserve (t : Table) (_arraySize _entryCount : Nat) : Table := t

/-- The border: the size of the array part. -/
def length (t : Table) : Nat := t.array.size

/-! ## Looking up -/

/-- The position of the entry of a key. -/
def entryPosition? (t : Table) (key : Value) : Option Nat :=
  (Key.ofValue? key).bind fun k => t.index[k]?

/-- The value of an entry, nil behind the last one. -/
def valueAt (t : Table) (position : Nat) : Value := (t.entries.getD position (.nil, .nil)).2

/-- The value of a key among the entries. -/
def getEntry (t : Table) (key : Value) : Value :=
  match t.entryPosition? key with
  | some position => t.valueAt position
  | none => .nil

/-- The value of a key, nil when it has none. -/
def get (t : Table) (key : Value) : Value :=
  match key.position? with
  | some i => if i ≤ t.array.size then t.array.getD (i - 1) .nil else t.getEntry key
  | none => t.getEntry key

/-- The value at an integer. -/
def getInt (t : Table) (i : Int) : Value :=
  if 1 ≤ i ∧ i ≤ t.array.size then t.array.getD (i.toNat - 1) .nil else t.get (.ofInt i)

/-- The value of a string key. -/
def getField (t : Table) (name : Bytes) : Value := t.get (.string name)

/-! ## Storing -/

/-- The array without the nils at its end. -/
def dropTrailingNils (a : Array Value) : Array Value :=
  if h : 0 < a.size then
    if a[a.size - 1].isNil then dropTrailingNils a.pop else a
  else a
termination_by a.size
decreasing_by simp; omega

/-- The table with another value in the array part. -/
def setArray (t : Table) (i : Nat) (value : Value) : Table :=
  { t with array := dropTrailingNils (t.array.setIfInBounds (i - 1) value) }

/-- The table with another value in an entry, keeping count of the live ones. -/
def setEntry (t : Table) (position : Nat) (value : Value) : Table :=
  let old := t.valueAt position
  let live :=
    if old.isNil && !value.isNil then t.live + 1
    else if !old.isNil && value.isNil then t.live - 1
    else t.live
  { t with entries := t.entries.modify position fun pair => (pair.1, value), live := live }

/-- The table in which the entry of a key is a tombstone that the index has forgotten. -/
def dropEntry (t : Table) (key : Key) (position : Nat) : Table :=
  let cleared := t.setEntry position .nil
  { cleared with index := cleared.index.erase key }

/-- The position of the entry of the integer just behind the border, with its key. -/
def nextPosition? (t : Table) : Option (Key × Nat) :=
  (Key.ofValue? (.ofNat (t.array.size + 1))).bind fun key => (t.index[key]?).map (key, ·)

/-- At most `count` integers behind the border have moved over from the entries. -/
def migrateUpTo : Nat → Table → Table
  | 0, t => t
  | count + 1, t =>
    match t.nextPosition? with
    | none => t
    | some (key, position) =>
      let value := t.valueAt position
      if value.isNil then t
      else
        let moved := t.dropEntry key position
        migrateUpTo count { moved with array := moved.array.push value }

/-- The table after the integers behind the border have moved over from the entries, as far as
they follow each other.  Each takes a key out of the index, so that there are no more of them than
keys. -/
def migrate (t : Table) : Table := migrateUpTo t.index.size t

/-- The table with a value behind the border. -/
def push (t : Table) (key value : Value) : Table :=
  let t :=
    match Key.ofValue? key with
    | some k =>
      match t.index[k]? with
      | some position => t.dropEntry k position
      | none => t
    | none => t
  { t with array := t.array.push value }.migrate

/-- The index of entries by their positions. -/
def indexOf (entries : List (Value × Value)) : Std.HashMap Key Nat :=
  entries.zipIdx.foldl
    (fun index pair =>
      match Key.ofValue? pair.1.1 with
      | some key => index.insert key pair.2
      | none => index)
    {}

/-- Whether tombstones outnumber the live entries of a table that is not small. -/
def isSparse (t : Table) : Bool := 16 ≤ t.entries.size && t.live * 2 < t.entries.size

/-- The table without its tombstones. -/
def compact (t : Table) : Table :=
  let kept := t.entries.filter fun pair => !pair.2.isNil
  { t with entries := kept, index := indexOf kept.toList }

/-- The table with a new entry at the end. -/
def append (t : Table) (key value : Value) : Table :=
  { t with
    entries := t.entries.push (key, value)
    index :=
      match Key.ofValue? key with
      | some k => t.index.insert k t.entries.size
      | none => t.index
    live := t.live + 1 }

/-- The table with a value in the entry of a key; a new key comes last, and may compact the
entries first. -/
def storeEntry (t : Table) (key value : Value) : Table :=
  match t.entryPosition? key with
  | some position => t.setEntry position value
  | none =>
    if value.isNil then t
    else (if t.isSparse then t.compact else t).append key value

/-- The table with a value at a key that is neither nil nor NaN. -/
def store (t : Table) (key value : Value) : Table :=
  match key.position? with
  | some i =>
    if i ≤ t.array.size then t.setArray i value
    else if i = t.array.size + 1 ∧ !value.isNil then t.push key value
    else t.storeEntry key value
  | none => t.storeEntry key value

/-- The table with a value at a key.  Nil removes the key; nil and NaN are no keys. -/
def set (t : Table) (key value : Value) : Except Fault Table :=
  match key with
  | .nil => .error .nilKey
  | .number n => if n.isNaN then .error .nanKey else .ok (t.store key value)
  | _ => .ok (t.store key value)

/-- The table with a value at an integer. -/
def setInt (t : Table) (i : Int) (value : Value) : Table := t.store (.ofInt i) value

/-- The table with a value at a string key. -/
def setField (t : Table) (name : Bytes) (value : Value) : Table := t.store (.string name) value

/-! ## Traversal -/

/-- The first element from a position on that satisfies a condition, with its position. -/
def findFrom? {α : Type} (p : α → Bool) (a : Array α) (i : Nat) : Option (Nat × α) :=
  if h : i < a.size then
    if p a[i] then some (i, a[i]) else findFrom? p a (i + 1)
  else none
termination_by a.size - i

/-- The first pair of the entries from a position on. -/
def firstEntry? (t : Table) (position : Nat) : Option (Value × Value) :=
  (findFrom? (fun pair => !pair.2.isNil) t.entries position).map (·.2)

/-- The first pair of the array part from a position on, or of the entries when it has none. -/
def firstFrom? (t : Table) (position : Nat) : Option (Value × Value) :=
  match findFrom? (fun value => !value.isNil) t.array position with
  | some (i, value) => some (.ofNat (i + 1), value)
  | none => t.firstEntry? 0

/-- The pair that follows a key in the traversal, array part first and then the entries in order
of insertion; nil starts it.  An integer that the index does not know resumes in the array, which
also covers one whose slot was cleared and cut off in the meantime. -/
def next (t : Table) (key : Value) : Except Fault (Option (Value × Value)) :=
  match key with
  | .nil => .ok (t.firstFrom? 0)
  | _ =>
    match key.position?, t.entryPosition? key with
    | some i, entry =>
      if i ≤ t.array.size then .ok (t.firstFrom? i)
      else
        match entry with
        | none => .ok (t.firstFrom? i)
        | some position => .ok (t.firstEntry? (position + 1))
    | none, some position => .ok (t.firstEntry? (position + 1))
    | none, none => .error .unknownKey

/-- Up to `limit` pairs of the traversal, from behind a key on. -/
def pairsFrom (t : Table) : Nat → Value → Except Fault (List (Value × Value))
  | 0, _ => .ok []
  | limit + 1, key => do
    match ← t.next key with
    | some pair => return pair :: (← pairsFrom t limit pair.1)
    | none => return []

end Table

end ScriptMachine
