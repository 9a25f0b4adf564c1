import Mathlib
import ScriptMachine.Proofs.Capture.Scopes

/-!
# Scopes in use

A session is a scope with the handles that captures have given out, and a history is what is done
to it: registers are captured and stored in, values are stored through handles, and registers go
out of scope.  Here is said, once, what each operation does to every register and to every cell,
and what holds at every moment of a session.
-/

namespace ScriptMachine

/-! ## Histories -/

/-- A scope in use: the store of its cells, and the handles that captures have given out. -/
structure Session where
  /-- The scope. -/
  scope : Scope
  /-- The store of cells. -/
  store : Cells
  /-- The handles that have been given out, the latest first. -/
  given : List CellId := []

namespace Session

/-- What can be done to a scope. -/
inductive Operation where
  /-- A register is captured. -/
  | capture (slot : Nat)
  /-- The registers from a slot on go out of scope. -/
  | close (slot : Nat)
  /-- The scope ends. -/
  | finish
  /-- A value is stored in a register. -/
  | setRegister (slot : Nat) (value : Value)
  /-- A value is stored through a handle. -/
  | write (id : CellId) (value : Value)

/-- The value of a register. -/
def register (s : Session) (slot : Nat) : Value := s.scope.register slot

/-- The value behind a handle. -/
def read (s : Session) (id : CellId) : Value := s.scope.read s.store id

/-- The handle that a capture of a register gives out. -/
def handle (s : Session) (slot : Nat) : CellId := (s.scope.capture s.store slot).1

/-- The session with some of its registers out of scope. -/
def close (s : Session) (slot : Nat) : Session :=
  let (scope, store) := s.scope.closeFrom s.store slot
  { s with scope, store }

/-- The session after an operation. -/
def after (s : Session) : Operation → Session
  | .capture slot =>
    let (id, scope, store) := s.scope.capture s.store slot
    { scope, store, given := id :: s.given }
  | .close slot => s.close slot
  | .finish => s.close 0
  | .setRegister slot value => { s with scope := s.scope.setRegister slot value }
  | .write id value =>
    let (scope, store) := s.scope.write s.store id value
    { s with scope, store }

/-- The session after a history of operations. -/
def run (s : Session) (history : List Operation) : Session := history.foldl after s

/-- Whether an operation names registers that are there and a handle that has been given out. -/
def permits (s : Session) : Operation → Bool
  | .capture slot | .setRegister slot _ => slot < s.scope.registers.size
  | .close _ | .finish => true
  | .write id _ => s.given.contains id

/-- Whether every operation of a history is permitted when its turn comes. -/
def allows (s : Session) : List Operation → Bool
  | [] => true
  | op :: history => s.permits op && (s.after op).allows history

/-- The start of a session: no cell is open on the scope. -/
structure Fresh (s : Session) : Prop where
  /-- The scope has no entries. -/
  captured : s.scope.captured = []
  /-- No cell is open on it. -/
  cells : ∀ id slot, s.store.cell id ≠ .open s.scope.id slot
  /-- No handle has been given out. -/
  given : s.given = []

/-! ## One operation -/

variable {s : Session}

@[simp] theorem after_scope_id (s : Session) (op : Operation) :
    (s.after op).scope.id = s.scope.id := by
  cases op with
  | capture slot => exact s.scope.capture_id s.store slot
  | write id value =>
    simp only [after, Scope.write]
    cases s.store.cell id <;> rfl
  | close slot => rfl
  | finish => rfl
  | setRegister slot value => rfl

theorem after_registers_size (s : Session) (op : Operation) :
    (s.after op).scope.registers.size = s.scope.registers.size := by
  cases op with
  | capture slot => exact congrArg Array.size (s.scope.capture_registers s.store slot)
  | write id value =>
    simp only [after, Scope.write]
    cases s.store.cell id <;> simp [Scope.setRegister]
  | close slot => rfl
  | finish => rfl
  | setRegister slot value => simp [after, Scope.setRegister]

/-- What an operation leaves in a register. -/
def registerAfter (s : Session) (op : Operation) (k : Nat) : Value :=
  match op with
  | .setRegister slot value => if slot = k then value else s.register k
  | .write id value =>
    if s.store.cell id = .open s.scope.id k then value else s.register k
  | .capture _ | .close _ | .finish => s.register k

/-- What closing from a slot on makes of a cell. -/
def closedFrom (s : Session) (slot : Nat) (id : CellId) : Cell :=
  match s.store.cell id with
  | .open frame k =>
    if frame = s.scope.id ∧ slot ≤ k then .closed (s.register k) else .open frame k
  | .closed value => .closed value

/-- What an operation makes of a cell. -/
def cellAfter (s : Session) (op : Operation) (id : CellId) : Cell :=
  match op with
  | .write written value =>
    if written = id ∧ (s.store.cell id).isOpen = false then .closed value else s.store.cell id
  | .close slot => s.closedFrom slot id
  | .finish => s.closedFrom 0 id
  | .capture _ | .setRegister _ _ => s.store.cell id

/-- An operation does to the registers and to the cells that are there what it should, and
nothing else. -/
structure Precise (s : Session) (op : Operation) : Prop where
  /-- What is in the registers afterwards. -/
  register : ∀ k, (s.after op).register k = s.registerAfter op k
  /-- What has become of the cells. -/
  cell : ∀ id : CellId, id.index < s.store.cells.size →
    (s.after op).store.cell id = s.cellAfter op id

/-- What holds at every moment of a session. -/
structure Sound (s : Session) : Prop where
  /-- The entries of the scope are exact. -/
  tracks : s.scope.Tracks s.store
  /-- Cells are open on registers that are there. -/
  bound : ∀ id slot, s.store.cell id = .open s.scope.id slot → slot < s.scope.registers.size
  /-- Handles are cells of the store. -/
  made : ∀ id ∈ s.given, id.index < s.store.cells.size
  /-- Handles that are open are open on the scope. -/
  home : ∀ id ∈ s.given, ∀ frame slot, s.store.cell id = .open frame slot →
    frame = s.scope.id
  /-- What is open on the scope has been given out. -/
  known : ∀ id slot, s.store.cell id = .open s.scope.id slot → id ∈ s.given

theorem Fresh.sound (h : s.Fresh) : s.Sound where
  tracks := Scope.tracks_of_fresh h.captured h.cells
  bound id slot hopen := absurd hopen (h.cells id slot)
  made id hid := by simp [h.given] at hid
  home id hid := by simp [h.given] at hid
  known id slot hopen := absurd hopen (h.cells id slot)

/-- The register of a slot that has been written. -/
theorem register_setRegister {scope : Scope} {slot : Nat} (h : slot < scope.registers.size)
    (value : Value) (k : Nat) :
    (scope.setRegister slot value).register k = if slot = k then value else scope.register k := by
  simp only [Scope.register, Scope.setRegister, Array.getD_eq_getD_getElem?]
  by_cases hk : slot = k
  · subst hk
    simp [h]
  · simp [hk, Array.getElem?_setIfInBounds_ne hk]

/-- Every permitted operation is precise. -/
theorem Sound.precise (h : s.Sound) {op : Operation} (hop : s.permits op) : s.Precise op := by
  cases op with
  | capture slot =>
    refine ⟨fun k => ?_, fun id hid => s.scope.cell_capture_of_lt slot hid⟩
    show (s.scope.capture s.store slot).2.1.registers.getD k .nil = _
    rw [Scope.capture_registers]
    rfl
  | close slot => exact ⟨fun _ => rfl, fun id _ => h.tracks.cell_closeFrom slot id⟩
  | finish => exact ⟨fun _ => rfl, fun id _ => h.tracks.cell_closeFrom 0 id⟩
  | setRegister slot value =>
    have hslot : slot < s.scope.registers.size := by simpa [permits] using hop
    exact ⟨fun k => register_setRegister hslot value k, fun _ _ => rfl⟩
  | write id value =>
    have hid : id ∈ s.given := by simpa [permits] using hop
    cases hcell : s.store.cell id with
    | «open» frame slot =>
      obtain rfl := h.home id hid frame slot hcell
      have hafter : s.after (.write id value) =
          { s with scope := s.scope.setRegister slot value } := by
        simp only [after, Scope.write, hcell]
      refine ⟨fun k => ?_, fun other _ => ?_⟩
      · rw [hafter]
        refine (register_setRegister (h.bound id slot hcell) value k).trans ?_
        simp only [registerAfter, hcell, Cell.open.injEq, true_and]
        rfl
      · rw [hafter]
        have hopen : ¬ (id = other ∧ (s.store.cell other).isOpen = false) := by
          rintro ⟨rfl, hclosed⟩
          rw [hcell] at hclosed
          cases hclosed
        simp only [cellAfter, if_neg hopen]
    | closed old =>
      have hafter : s.after (.write id value) =
          { s with store := s.store.replace id (.closed value) } := by
        simp only [after, Scope.write, hcell]
      refine ⟨fun k => ?_, fun other _ => ?_⟩
      · rw [hafter]
        simp only [registerAfter, hcell, reduceCtorEq, if_false]
        rfl
      · rw [hafter]
        refine (Cells.cell_replace (h.made id hid) _).trans ?_
        by_cases hother : other = id
        · subst hother
          simp [cellAfter, hcell, Cell.isOpen]
        · simp [cellAfter, hother, Ne.symm hother]

/-- Writing opens and closes no cell. -/
theorem open_write_iff (s : Session) (written id : CellId) (value : Value) {frame : FrameId}
    {slot : Nat} :
    (s.after (.write written value)).store.cell id = .open frame slot ↔
      s.store.cell id = .open frame slot := by
  simp only [after, Scope.write]
  cases hcell : s.store.cell written with
  | «open» frame' slot' => rfl
  | closed old => exact Cells.open_replace_closed_iff hcell value

theorem evolves_after (s : Session) (op : Operation) : s.store.Evolves (s.after op).store := by
  cases op with
  | capture slot => exact s.scope.evolves_capture s.store slot
  | close slot => exact s.scope.evolves_closeFrom s.store slot
  | finish => exact s.scope.evolves_closeFrom s.store 0
  | setRegister slot value => exact .refl _
  | write id value =>
    simp only [after, Scope.write]
    cases s.store.cell id with
    | «open» frame slot => exact .refl _
    | closed old => exact s.store.evolves_replace_closed id value

theorem Sound.tracks_after (h : s.Sound) (op : Operation) :
    (s.after op).scope.Tracks (s.after op).store := by
  cases op with
  | capture slot => exact h.tracks.capture slot
  | close slot => exact h.tracks.closeFrom slot
  | finish => exact h.tracks.closeFrom 0
  | setRegister slot value => exact h.tracks.congr rfl rfl fun _ _ => .rfl
  | write id value =>
    refine h.tracks.congr (after_scope_id s _) ?_ fun other slot => open_write_iff s id other value
    simp only [after, Scope.write]
    cases s.store.cell id <;> rfl

/-- A cell is open after an operation when the operation has captured its register, or when it was
open and the operation has not closed it. -/
theorem Sound.open_after (h : s.Sound) {op : Operation} {id : CellId} {frame : FrameId} {k : Nat}
    (hopen : (s.after op).store.cell id = .open frame k) :
    (op = .capture k ∧ id = s.handle k ∧ frame = s.scope.id) ∨
      s.store.cell id = .open frame k := by
  cases op with
  | capture slot =>
    rcases (h.tracks.open_capture_iff slot).1 hopen with ⟨hid, hframe, rfl⟩ | hold
    · exact .inl ⟨rfl, hid, hframe⟩
    · exact .inr hold
  | close slot => exact .inr (h.tracks.open_closeFrom_iff.1 hopen).1
  | finish => exact .inr (h.tracks.open_closeFrom_iff.1 hopen).1
  | setRegister slot value => exact .inr hopen
  | write written value => exact .inr ((open_write_iff s written id value).1 hopen)

/-- The handles after an operation are those before it and the one it has given out. -/
theorem mem_given_after {op : Operation} {id : CellId} :
    id ∈ (s.after op).given ↔
      (∃ slot, op = .capture slot ∧ id = s.handle slot) ∨ id ∈ s.given := by
  cases op with
  | capture slot => simp [after, handle]
  | write written value => simp [after]
  | close slot => simp [after, close]
  | finish => simp [after, close]
  | setRegister slot value => simp [after]

theorem Sound.after (h : s.Sound) {op : Operation} (hop : s.permits op) : (s.after op).Sound where
  tracks := h.tracks_after op
  bound id slot hopen := by
    rw [after_scope_id] at hopen
    rw [after_registers_size]
    rcases h.open_after hopen with ⟨rfl, -, -⟩ | hold
    · simpa [permits] using hop
    · exact h.bound id slot hold
  made id hid := by
    rcases mem_given_after.1 hid with ⟨slot, rfl, rfl⟩ | hold
    · exact Cells.lt_of_open (h.tracks.cell_capture slot)
    · exact lt_of_lt_of_le (h.made id hold) (evolves_after s op).size_le
  home id hid frame slot hopen := by
    rw [after_scope_id]
    rcases h.open_after hopen with ⟨-, -, hframe⟩ | hold
    · exact hframe
    · rcases mem_given_after.1 hid with ⟨slot', rfl, rfl⟩ | hgiven
      · have hsame := hopen.symm.trans (h.tracks.cell_capture slot')
        cases hsame
        rfl
      · exact h.home id hgiven frame slot hold
  known id slot hopen := by
    rw [after_scope_id] at hopen
    rcases h.open_after hopen with ⟨rfl, rfl, -⟩ | hold
    · exact mem_given_after.2 (.inl ⟨slot, rfl, rfl⟩)
    · exact mem_given_after.2 (.inr (h.known id slot hold))

end Session

end ScriptMachine
