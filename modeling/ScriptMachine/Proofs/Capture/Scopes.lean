import Mathlib
import ScriptMachine.Upvalue

/-!
# Scopes and the cells that are open on them

A scope *tracks* a store when its list of captured slots is exact: it has one entry for every cell
that is open on the scope, under the slot that the cell stands for.  Capturing a register and
closing cells keep a scope tracking, and what they do to each cell is said here once; a cell that
has been closed never opens again.
-/

namespace ScriptMachine

/-! ## Stores of cells -/

namespace Cells

variable {store : Cells} {id other : CellId}

/-- Only cells that have been made are open. -/
theorem lt_of_open {frame : FrameId} {slot : Nat} (h : store.cell id = .open frame slot) :
    id.index < store.cells.size := by
  by_contra hge
  rw [cell, Array.getD_eq_getD_getElem?, Array.getElem?_eq_none (by omega)] at h
  cases h

theorem cell_replace (h : id.index < store.cells.size) (cell : Cell) :
    (store.replace id cell).cell other = if other = id then cell else store.cell other := by
  unfold Cells.cell replace
  simp only [Array.getD_eq_getD_getElem?]
  by_cases hother : other = id
  · subst hother
    simp [h]
  · have hne : id.index ≠ other.index := fun heq => hother (by cases id; cases other; simp_all)
    simp [hother, Array.getElem?_setIfInBounds_ne hne]

theorem cell_create (cell : Cell) :
    (store.create cell).2.cell other =
      if other.index = store.cells.size then cell else store.cell other := by
  unfold Cells.cell create
  simp only [Array.getD_eq_getD_getElem?, Array.getElem?_push]
  split <;> rfl

/-- One store has become another one: cells have been added, and those that were there have stayed
as they are or are closed now. -/
structure Evolves (store store' : Cells) : Prop where
  /-- No cell has gone. -/
  size_le : store.cells.size ≤ store'.cells.size
  /-- What has changed is closed. -/
  cell : ∀ id : CellId, id.index < store.cells.size →
    store'.cell id = store.cell id ∨ (store'.cell id).isOpen = false

namespace Evolves

variable {store' store'' : Cells}

theorem refl (store : Cells) : store.Evolves store := ⟨le_refl _, fun _ _ => .inl rfl⟩

theorem trans (h : store.Evolves store') (h' : store'.Evolves store'') :
    store.Evolves store'' := by
  refine ⟨le_trans h.size_le h'.size_le, fun id hid => ?_⟩
  rcases h'.cell id (lt_of_lt_of_le hid h.size_le) with hsame | hclosed
  · rw [hsame]
    exact h.cell id hid
  · exact .inr hclosed

/-- A cell that is not open now will not be open later. -/
theorem not_open (h : store.Evolves store') (hid : id.index < store.cells.size)
    (hclosed : (store.cell id).isOpen = false) : (store'.cell id).isOpen = false := by
  rcases h.cell id hid with hsame | hclosed'
  · rw [hsame]
    exact hclosed
  · exact hclosed'

/-- A cell that was there and is open now has always been open in the same place. -/
theorem eq_of_open (h : store.Evolves store') (hid : id.index < store.cells.size)
    {frame : FrameId} {slot : Nat} (hopen : store'.cell id = .open frame slot) :
    store.cell id = .open frame slot := by
  rcases h.cell id hid with hsame | hclosed
  · rw [← hsame, hopen]
  · rw [hopen] at hclosed
    cases hclosed

end Evolves

@[simp] theorem size_replace (store : Cells) (id : CellId) (cell : Cell) :
    (store.replace id cell).cells.size = store.cells.size := by
  simp [replace]

theorem evolves_replace_closed (store : Cells) (id : CellId) (value : Value) :
    store.Evolves (store.replace id (.closed value)) := by
  refine ⟨by simp, fun other hother => ?_⟩
  by_cases hid : id.index < store.cells.size
  · rw [cell_replace hid]
    split
    · exact .inr rfl
    · exact .inl rfl
  · left
    unfold replace
    rw [Array.setIfInBounds_eq_of_size_le (Nat.not_lt.1 hid)]

/-- A closed cell with another value leaves the same cells open. -/
theorem open_replace_closed_iff {old : Value} (hid : store.cell id = .closed old) (value : Value)
    {frame : FrameId} {slot : Nat} :
    (store.replace id (.closed value)).cell other = .open frame slot ↔
      store.cell other = .open frame slot := by
  by_cases hlt : id.index < store.cells.size
  · rw [cell_replace hlt]
    by_cases hother : other = id
    · simp [hother, hid]
    · simp [hother]
  · unfold replace
    rw [Array.setIfInBounds_eq_of_size_le (Nat.not_lt.1 hlt)]

theorem evolves_create (store : Cells) (cell : Cell) : store.Evolves (store.create cell).2 := by
  refine ⟨by simp [create], fun id hid => .inl ?_⟩
  rw [cell_create, if_neg (Nat.ne_of_lt hid)]

end Cells

/-! ## Tracking -/

namespace Scope

/-- The scope has exactly one entry for every cell that is open on it. -/
structure Tracks (s : Scope) (store : Cells) : Prop where
  /-- The entries are the cells that are open on the scope, each under its slot. -/
  mem_iff : ∀ slot id, (slot, id) ∈ s.captured ↔ store.cell id = .open s.id slot
  /-- No slot has two cells. -/
  unique : ∀ slot id id', store.cell id = .open s.id slot → store.cell id' = .open s.id slot →
    id = id'

variable {s : Scope} {store : Cells} {slot : Nat} {id : CellId}

/-- A scope without entries tracks a store in which no cell is open on it. -/
theorem tracks_of_fresh (hcaptured : s.captured = [])
    (hstore : ∀ id slot, store.cell id ≠ .open s.id slot) : s.Tracks store := by
  refine ⟨fun slot id => ?_, fun slot id _ hid => absurd hid (hstore id slot)⟩
  simp [hcaptured, hstore]

/-- Tracking depends on the cells that are open on the scope alone. -/
theorem Tracks.congr (h : s.Tracks store) {t : Scope} {store' : Cells} (hid : t.id = s.id)
    (hcaptured : t.captured = s.captured)
    (hcells : ∀ id slot, store'.cell id = .open s.id slot ↔ store.cell id = .open s.id slot) :
    t.Tracks store' := by
  refine ⟨fun slot id => ?_, fun slot id id' hopen hopen' => ?_⟩
  · rw [hcaptured, hid, hcells]
    exact h.mem_iff slot id
  · rw [hid, hcells] at hopen hopen'
    exact h.unique slot id id' hopen hopen'

/-! ## Capturing -/

theorem mem_insertCell {entry : Nat × CellId} (slot : Nat) (id : CellId)
    (entries : List (Nat × CellId)) :
    entry ∈ insertCell slot id entries ↔ entry = (slot, id) ∨ entry ∈ entries := by
  induction entries with
  | nil => simp [insertCell]
  | cons first others ih =>
    rw [insertCell]
    split
    · simp
    · rw [List.mem_cons, ih, List.mem_cons]
      tauto

theorem Tracks.cellOn?_eq_some_iff (h : s.Tracks store) :
    s.cellOn? slot = some id ↔ store.cell id = .open s.id slot := by
  unfold cellOn?
  rw [Option.map_eq_some_iff]
  constructor
  · rintro ⟨⟨slot', id'⟩, hfind, rfl⟩
    obtain rfl : slot' = slot := by simpa using List.find?_some hfind
    exact (h.mem_iff _ _).1 (List.mem_of_find?_eq_some hfind)
  · intro hopen
    have hmem := (h.mem_iff slot id).2 hopen
    obtain ⟨⟨slot', id'⟩, hfind⟩ : ∃ entry,
        (s.captured.find? fun entry => entry.1 == slot) = some entry := by
      rw [← Option.isSome_iff_exists, List.find?_isSome]
      exact ⟨_, hmem, by simp⟩
    obtain rfl : slot' = slot := by simpa using List.find?_some hfind
    have hopen' := (h.mem_iff _ _).1 (List.mem_of_find?_eq_some hfind)
    exact ⟨_, hfind, h.unique _ _ _ hopen' hopen⟩

/-- A capture finds the cell that is open on the slot, or else opens a new one there. -/
theorem Tracks.capture_cases (h : s.Tracks store) (slot : Nat) :
    (∃ id, store.cell id = .open s.id slot ∧ s.capture store slot = (id, s, store)) ∨
      (∀ id, store.cell id ≠ .open s.id slot) ∧
        s.capture store slot =
          (⟨store.cells.size⟩,
            { s with captured := insertCell slot ⟨store.cells.size⟩ s.captured },
            (store.create (.open s.id slot)).2) := by
  cases hcell : s.cellOn? slot with
  | some id =>
    refine .inl ⟨id, h.cellOn?_eq_some_iff.1 hcell, ?_⟩
    simp only [Scope.capture, hcell]
  | none =>
    refine .inr ⟨fun id hopen => ?_, ?_⟩
    · rw [h.cellOn?_eq_some_iff.2 hopen] at hcell
      cases hcell
    · simp only [Scope.capture, hcell]
      rfl

theorem capture_registers (s : Scope) (store : Cells) (slot : Nat) :
    (s.capture store slot).2.1.registers = s.registers := by
  unfold Scope.capture
  split <;> rfl

theorem capture_id (s : Scope) (store : Cells) (slot : Nat) :
    (s.capture store slot).2.1.id = s.id := by
  unfold Scope.capture
  split <;> rfl

theorem evolves_capture (s : Scope) (store : Cells) (slot : Nat) :
    store.Evolves (s.capture store slot).2.2 := by
  unfold Scope.capture
  split
  · exact .refl _
  · exact store.evolves_create _

/-- The cell of a capture is open on its slot. -/
theorem Tracks.cell_capture (h : s.Tracks store) (slot : Nat) :
    (s.capture store slot).2.2.cell (s.capture store slot).1 = .open s.id slot := by
  rcases h.capture_cases slot with ⟨id, hopen, heq⟩ | ⟨-, heq⟩ <;> rw [heq]
  · exact hopen
  · rw [Cells.cell_create, if_pos rfl]

/-- A capture changes no cell that is there. -/
theorem cell_capture_of_lt (s : Scope) {store : Cells} (slot : Nat)
    (hid : id.index < store.cells.size) :
    (s.capture store slot).2.2.cell id = store.cell id := by
  unfold Scope.capture
  split
  · rfl
  · show (store.create _).2.cell id = _
    rw [Cells.cell_create, if_neg (Nat.ne_of_lt hid)]

/-- What a capture leaves open is the cell of its slot and what was open. -/
theorem Tracks.open_capture_iff (h : s.Tracks store) (slot : Nat) {id : CellId} {frame : FrameId}
    {k : Nat} :
    (s.capture store slot).2.2.cell id = .open frame k ↔
      (id = (s.capture store slot).1 ∧ frame = s.id ∧ k = slot) ∨
        store.cell id = .open frame k := by
  rcases h.capture_cases slot with ⟨found, hfound, heq⟩ | ⟨hnone, heq⟩ <;> rw [heq]
  · refine ⟨.inr, ?_⟩
    rintro (⟨rfl, rfl, rfl⟩ | hopen)
    · exact hfound
    · exact hopen
  · dsimp only
    rw [Cells.cell_create]
    by_cases hid : id.index = store.cells.size
    · have hnew : id = ⟨store.cells.size⟩ := by cases id; simp_all
      have hnot : store.cell id ≠ .open frame k := fun hopen =>
        absurd (Cells.lt_of_open hopen) (by omega)
      rw [if_pos hid, or_iff_left hnot]
      constructor
      · intro heq
        cases heq
        exact ⟨hnew, rfl, rfl⟩
      · rintro ⟨-, rfl, rfl⟩
        rfl
    · have hold : id ≠ ⟨store.cells.size⟩ := fun heq => hid (by rw [heq])
      rw [if_neg hid]
      simp [hold]

theorem Tracks.capture (h : s.Tracks store) (slot : Nat) :
    (s.capture store slot).2.1.Tracks (s.capture store slot).2.2 := by
  rcases h.capture_cases slot with ⟨found, hfound, heq⟩ | ⟨hnone, heq⟩
  · rw [heq]
    exact h
  · have hiff : ∀ {id : CellId} {frame : FrameId} {k : Nat},
        (s.capture store slot).2.2.cell id = .open frame k ↔
          (id = (s.capture store slot).1 ∧ frame = s.id ∧ k = slot) ∨
            store.cell id = .open frame k := h.open_capture_iff slot
    rw [heq] at hiff ⊢
    refine ⟨fun k id => ?_, fun k id id' hopen hopen' => ?_⟩
    · show (k, id) ∈ insertCell _ _ _ ↔ _
      rw [mem_insertCell, h.mem_iff, hiff]
      simp [Prod.ext_iff, and_comm]
    · -- the new cell is the only one on its slot, for there was none before
      rcases hiff.1 hopen with ⟨rfl, -, rfl⟩ | hold <;>
        rcases hiff.1 hopen' with ⟨rfl, -, hk⟩ | hold'
      · rfl
      · exact absurd hold' (hnone _)
      · exact absurd (hk ▸ hold) (hnone _)
      · exact h.unique k id id' hold hold'

/-! ## Closing -/

theorem cell_closeCell (s : Scope) (store : Cells) (closing id : CellId) :
    (s.closeCell store closing).cell id =
      match store.cell id with
      | .open frame k =>
        if frame = s.id ∧ id = closing then .closed (s.register k) else .open frame k
      | .closed value => .closed value := by
  unfold closeCell
  cases hclosing : store.cell closing with
  | closed value =>
    dsimp only
    cases hid : store.cell id with
    | closed value => rfl
    | «open» frame k =>
      have hne : id ≠ closing := by
        rintro rfl
        rw [hid] at hclosing
        cases hclosing
      simp [hne]
  | «open» frame k =>
    dsimp only
    by_cases hframe : frame = s.id
    · rw [if_pos hframe, Cells.cell_replace (Cells.lt_of_open hclosing)]
      by_cases hid : id = closing
      · rw [if_pos hid, hid, hclosing]
        simp [hframe]
      · rw [if_neg hid]
        cases store.cell id <;> simp [hid]
    · rw [if_neg hframe]
      cases hid : store.cell id with
      | closed value => rfl
      | «open» frame' k' =>
        have hboth : ¬ (frame' = s.id ∧ id = closing) := by
          rintro ⟨rfl, rfl⟩
          rw [hid] at hclosing
          cases hclosing
          exact hframe rfl
        simp [hboth]

/-- Closing cells one after the other closes those that are open on the scope. -/
theorem cell_foldl_closeCell (s : Scope) (entries : List (Nat × CellId)) (store : Cells)
    (id : CellId) :
    (entries.foldl (fun store entry => s.closeCell store entry.2) store).cell id =
      match store.cell id with
      | .open frame k =>
        if frame = s.id ∧ id ∈ entries.map (·.2) then .closed (s.register k) else .open frame k
      | .closed value => .closed value := by
  induction entries generalizing store with
  | nil =>
    rw [List.foldl_nil]
    cases store.cell id <;> simp
  | cons entry entries ih =>
    rw [List.foldl_cons, ih, cell_closeCell]
    cases store.cell id with
    | closed value => rfl
    | «open» frame k =>
      dsimp only
      by_cases hid : id = entry.2
      · by_cases hframe : frame = s.id
        · simp [hframe, hid]
        · simp [hframe]
      · have hmem : id ∈ (entry :: entries).map (·.2) ↔ id ∈ entries.map (·.2) := by
          simp [hid]
        simp only [hid, and_false, if_false, hmem]

/-- Closing from a slot on closes the cells that are open on the scope there, each with the value
of its register, and no other cell changes. -/
theorem Tracks.cell_closeFrom (h : s.Tracks store) (slot : Nat) (id : CellId) :
    (s.closeFrom store slot).2.cell id =
      match store.cell id with
      | .open frame k =>
        if frame = s.id ∧ slot ≤ k then .closed (s.register k) else .open frame k
      | .closed value => .closed value := by
  unfold closeFrom
  simp only [List.partition_eq_filter_filter]
  rw [cell_foldl_closeCell]
  cases hid : store.cell id with
  | closed value => rfl
  | «open» frame k =>
    dsimp only
    by_cases hframe : frame = s.id
    · subst hframe
      have hclosing : id ∈ (s.captured.filter fun entry => decide (slot ≤ entry.1)).map (·.2) ↔
          slot ≤ k := by
        rw [List.mem_map]
        constructor
        · rintro ⟨⟨slot', id⟩, hmem, rfl⟩
          rw [List.mem_filter, h.mem_iff, hid] at hmem
          obtain ⟨hopen, hle⟩ := hmem
          cases hopen
          simpa using hle
        · intro hle
          exact ⟨(k, id), List.mem_filter.2 ⟨(h.mem_iff k id).2 hid, by simpa using hle⟩, rfl⟩
      simp only [hclosing]
    · simp [hframe]

theorem closeFrom_id (s : Scope) (store : Cells) (slot : Nat) :
    (s.closeFrom store slot).1.id = s.id := rfl

theorem size_closeCell (s : Scope) (store : Cells) (id : CellId) :
    (s.closeCell store id).cells.size = store.cells.size := by
  unfold closeCell
  split
  · split
    · exact Cells.size_replace _ _ _
    · rfl
  · rfl

/-- Closing makes no cells. -/
theorem size_closeFrom (s : Scope) (store : Cells) (slot : Nat) :
    (s.closeFrom store slot).2.cells.size = store.cells.size := by
  have hfold : ∀ (entries : List (Nat × CellId)) (store : Cells),
      (entries.foldl (fun store entry => s.closeCell store entry.2) store).cells.size =
        store.cells.size := by
    intro entries
    induction entries with
    | nil => exact fun _ => rfl
    | cons entry entries ih => exact fun store => (ih _).trans (s.size_closeCell store entry.2)
  exact hfold _ store

theorem evolves_closeCell (s : Scope) (store : Cells) (id : CellId) :
    store.Evolves (s.closeCell store id) := by
  unfold closeCell
  split
  · split
    · exact store.evolves_replace_closed _ _
    · exact .refl _
  · exact .refl _

theorem evolves_foldl_closeCell (s : Scope) (entries : List (Nat × CellId)) (store : Cells) :
    store.Evolves (entries.foldl (fun store entry => s.closeCell store entry.2) store) := by
  induction entries generalizing store with
  | nil => exact .refl _
  | cons entry entries ih => exact (s.evolves_closeCell store entry.2).trans (ih _)

theorem evolves_closeFrom (s : Scope) (store : Cells) (slot : Nat) :
    store.Evolves (s.closeFrom store slot).2 :=
  s.evolves_foldl_closeCell _ store

/-- What closing leaves open is what was open elsewhere or below the slot. -/
theorem Tracks.open_closeFrom_iff (h : s.Tracks store) {frame : FrameId} {k : Nat} :
    (s.closeFrom store slot).2.cell id = .open frame k ↔
      store.cell id = .open frame k ∧ ¬ (frame = s.id ∧ slot ≤ k) := by
  rw [h.cell_closeFrom]
  cases store.cell id with
  | closed value => simp
  | «open» frame' k' =>
    dsimp only
    by_cases hclosing : frame' = s.id ∧ slot ≤ k'
    · simp only [hclosing, and_self, if_true, reduceCtorEq, Cell.open.injEq, false_iff]
      rintro ⟨⟨rfl, rfl⟩, hnot⟩
      exact hnot ⟨rfl, hclosing.2⟩
    · rw [if_neg hclosing]
      refine ⟨fun heq => ⟨heq, ?_⟩, And.left⟩
      cases heq
      exact hclosing

theorem Tracks.closeFrom (h : s.Tracks store) (slot : Nat) :
    (s.closeFrom store slot).1.Tracks (s.closeFrom store slot).2 := by
  refine ⟨fun k id => ?_, fun k id id' hopen hopen' => ?_⟩
  · rw [closeFrom_id, h.open_closeFrom_iff, ← h.mem_iff]
    unfold Scope.closeFrom
    simp [List.partition_eq_filter_filter]
  · exact h.unique k id id' (h.open_closeFrom_iff.1 hopen).1 (h.open_closeFrom_iff.1 hopen').1

end Scope

end ScriptMachine
