import ScriptMachine.Heap

/-!
# Iteration over tables

A loop over a table without an iterator function is driven by a bridge: a traversal of the table
that yields one key and value per round, cut or filled up to the count of values that the loop
wants.  Once the traversal has ended, or failed, it is never resumed.
-/

namespace ScriptMachine

/-- The state of a traversal. -/
inductive Traversal where
  /-- The last key that was yielded, nil at first. -/
  | behind (key : Value)
  /-- The end was reached, or the traversal failed. -/
  | ended
deriving DecidableEq

/-- A traversal that drives a loop. -/
structure Bridge where
  /-- The table. -/
  table : TableId
  /-- Count of values that the loop wants in a round. -/
  arity : Nat
  /-- Where the traversal stands. -/
  traversal : Traversal := .behind .nil
  /-- Whether the end has been reported. -/
  finished : Bool := false
  /-- How often the traversal has been resumed. -/
  resumes : Nat := 0

/-- The first values of a list, nil being added where there are too few. -/
def fitTo (count : Nat) (values : List Value) : List Value :=
  values.take count ++ List.replicate (count - values.length) .nil

namespace Bridge

/-- The bridge for a loop over a value; only tables can be iterated over. -/
def forValue (value : Value) (arity : Nat) : Except Fault Bridge :=
  match value with
  | .table table => .ok { table, arity }
  | _ => .error (.notIterable value.kind)

/-- The next round's values, or none at the end. -/
def step (b : Bridge) (heap : Heap) : Bridge × Except Fault (Option (List Value)) :=
  if b.finished then (b, .ok none)
  else
    let b := { b with resumes := b.resumes + 1 }
    match b.traversal with
    | .ended => ({ b with finished := true }, .ok none)
    | .behind key =>
      match heap.next b.table key with
      | .error fault => ({ b with traversal := .ended }, .error fault)
      | .ok none => ({ b with traversal := .ended, finished := true }, .ok none)
      | .ok (some (key, value)) =>
        ({ b with traversal := .behind key }, .ok (some (fitTo b.arity [key, value])))

end Bridge

end ScriptMachine
