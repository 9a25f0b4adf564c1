import ScriptMachine.Value

/-!
# Captured variables

A closure reaches the variables of the function around it through *cells*.  While that function
runs, the cell of a captured register is open: it stands for the register, and both read and write
the same value.  When the register goes out of scope the cell is closed: it takes the register's
value and is a variable of its own from then on.

A `Scope` is a register file with the cells that are open, or were opened, on it, by slot.  Opening
a slot twice gives the same cell, so that all closures of a scope share their variables.
-/

namespace ScriptMachine

/-- The identity of a cell. -/
structure CellId where
  /-- Position in the store of cells. -/
  index : Nat
deriving DecidableEq, Repr

/-- The identity of a register file. -/
structure FrameId where
  /-- Serial number. -/
  index : Nat
deriving DecidableEq, Repr

/-- A captured variable. -/
inductive Cell where
  /-- The variable is a register. -/
  | «open» (frame : FrameId) (slot : Nat)
  /-- The variable is the cell itself. -/
  | closed (value : Value)
deriving DecidableEq

instance : Inhabited Cell := ⟨.closed .nil⟩

/-- Whether a cell stands for a register. -/
def Cell.isOpen : Cell → Bool
  | .open _ _ => true
  | .closed _ => false

/-- The slot that an open cell stands for. -/
def Cell.slot? : Cell → Option Nat
  | .open _ slot => some slot
  | .closed _ => none

/-- The store of cells. -/
structure Cells where
  /-- The cells by the index of their identity. -/
  cells : Array Cell := #[]

namespace Cells

/-- A cell. -/
def cell (store : Cells) (id : CellId) : Cell := store.cells.getD id.index default

/-- The store with another cell in place of one. -/
def replace (store : Cells) (id : CellId) (cell : Cell) : Cells :=
  { store with cells := store.cells.setIfInBounds id.index cell }

/-- The store with a new cell. -/
def create (store : Cells) (cell : Cell) : CellId × Cells :=
  (⟨store.cells.size⟩, { store with cells := store.cells.push cell })

end Cells

/-- A register file and the cells on it, by increasing slot. -/
structure Scope where
  /-- The identity of the register file. -/
  id : FrameId
  /-- The registers. -/
  registers : Array Value
  /-- The cells that were opened and not forgotten since. -/
  captured : List (Nat × CellId) := []

namespace Scope

/-- The value of a register. -/
def register (s : Scope) (slot : Nat) : Value := s.registers.getD slot .nil

/-- The scope with another value in a register. -/
def setRegister (s : Scope) (slot : Nat) (value : Value) : Scope :=
  { s with registers := s.registers.setIfInBounds slot value }

/-- The cell on a slot. -/
def cellOn? (s : Scope) (slot : Nat) : Option CellId :=
  (s.captured.find? fun entry => entry.1 == slot).map (·.2)

/-- A list of cells by slot with one more. -/
def insertCell (slot : Nat) (id : CellId) : List (Nat × CellId) → List (Nat × CellId)
  | [] => [(slot, id)]
  | entry :: others =>
    if slot < entry.1 then (slot, id) :: entry :: others
    else entry :: insertCell slot id others

/-- The cell on a slot, a new open one when there is none yet. -/
def capture (s : Scope) (store : Cells) (slot : Nat) : CellId × Scope × Cells :=
  match s.cellOn? slot with
  | some id => (id, s, store)
  | none =>
    let (id, store) := store.create (.open s.id slot)
    (id, { s with captured := insertCell slot id s.captured }, store)

/-- The store after a cell has been closed.  Only a cell that is open on this scope changes. -/
def closeCell (s : Scope) (store : Cells) (id : CellId) : Cells :=
  match store.cell id with
  | .open frame slot =>
    if frame = s.id then store.replace id (.closed (s.register slot)) else store
  | .closed _ => store

/-- Closes and forgets the cells from a slot on. -/
def closeFrom (s : Scope) (store : Cells) (slot : Nat) : Scope × Cells :=
  let (closing, kept) := s.captured.partition fun entry => slot ≤ entry.1
  ({ s with captured := kept }, closing.foldl (fun store entry => s.closeCell store entry.2) store)

/-- The value of a variable that is a cell of its own or a register of this scope. -/
def read (s : Scope) (store : Cells) (id : CellId) : Value :=
  match store.cell id with
  | .open _ slot => s.register slot
  | .closed value => value

/-- Another value for a variable that is a cell of its own or a register of this scope. -/
def write (s : Scope) (store : Cells) (id : CellId) (value : Value) : Scope × Cells :=
  match store.cell id with
  | .open _ slot => (s.setRegister slot value, store)
  | .closed _ => (s, store.replace id (.closed value))

end Scope

end ScriptMachine
