import Mathlib
import ScriptMachine.Proofs.Capture.Frames
import ScriptMachine.Proofs.Machine.Outcomes

/-!
# What closures capture

The captures of a new closure stand behind the instruction that makes it.  Each of them gives the
closure one cell: a new one that nothing else refers to, the one that is open on a register, or one
that the running closure has itself.  When a capture is missing or is none that can be carried out,
no closure is made and no register changes.
-/

namespace ScriptMachine

/-- Captured variables are cells of a store. -/
def Cells.Has (store : Cells) (upvalues : Array CellId) : Prop :=
  ∀ (k : Nat) id, upvalues[k]? = some id → id.index < store.cells.size

theorem Cells.Has.mono {store store' : Cells} {upvalues : Array CellId} (h : store.Has upvalues)
    (hsize : store.cells.size ≤ store'.cells.size) : store'.Has upvalues :=
  fun k id hid => lt_of_lt_of_le (h k id hid) hsize

namespace Running

variable {s t u : Running} {shares : Bool} {id : CellId} {ids : List CellId} {j : Instruction}

/-! ## Captures that are there -/

/-- The capture that stands some slots behind the position of the frame.  A breakpoint that has been
set in its place is none. -/
def capture? (s : Running) (k : Nat) : Option Instruction :=
  (s.prototype.code[s.frame.pc + k]?.map Slot.asInstruction).filter (·.opcode = .capture)

/-- A capture can be carried out: it is of a known kind, and a captured variable of the running
closure that it names is there. -/
def Allows (s : Running) (j : Instruction) : Prop :=
  j.operands.a ≤ 2 ∧ (j.operands.a = 2 → j.operands.b < s.frame.upvalues.size)

/-- The next captures are there, and can be carried out. -/
def Complete (s : Running) (count : Nat) : Prop :=
  ∀ k < count, ∃ j, s.capture? k = some j ∧ s.Allows j

/-- The cells of the frame are as they should be: those on its registers are listed, and those of
its closure have been made. -/
structure Sound (s : Running) : Prop where
  /-- The open cells of the frame are listed. -/
  tracks : s.frame.toScope.Tracks s.world.cells
  /-- The captured variables of its closure are cells. -/
  known : s.world.cells.Has s.frame.upvalues

/-! ## Cells that captures give -/

/-- The cell that a capture gives, between the state in which the instruction runs that makes the
closure and the one in which it has run. -/
inductive Gives (s t : Running) (shares : Bool) (j : Instruction) (id : CellId) : Prop where
  /-- A capture by value gives a new cell with the value of the register. -/
  | value (kind : j.operands.a = 0) (fresh : s.world.cells.cells.size ≤ id.index)
    (cell : t.world.cells.cell id = .closed (s.frame.register j.operands.b))
  /-- A capture by reference gives the cell that is open on the register, where closures share
  registers.  It is the one that was open there before, if any. -/
  | shared (kind : j.operands.a = 1) (shared : shares = true)
    (listed : t.frame.toScope.cellOn? j.operands.b = some id)
    (cell : t.world.cells.cell id = .open s.frame.id j.operands.b)
    (before : ∀ old, s.frame.toScope.cellOn? j.operands.b = some old → id = old)
  /-- Elsewhere it gives a new cell that holds nil. -/
  | apart (kind : j.operands.a = 1) (apart : shares = false)
    (fresh : s.world.cells.cells.size ≤ id.index) (cell : t.world.cells.cell id = .closed .nil)
  /-- A capture of a captured variable gives the one of the running closure. -/
  | handed (kind : j.operands.a = 2) (held : s.frame.upvalues[j.operands.b]? = some id)

/-- The next captures give some cells. -/
structure Captures (s t : Running) (shares : Bool) (ids : List CellId) : Prop where
  /-- Each gives one. -/
  gives : ∀ (k : Nat) id, ids[k]? = some id →
    ∃ j, s.capture? k = some j ∧ Gives s t shares j id
  /-- A new cell that is closed is given by one of them alone. -/
  alone : ∀ (k k' : Nat) id, ids[k]? = some id → ids[k']? = some id →
    s.world.cells.cells.size ≤ id.index → (t.world.cells.cell id).isOpen = false → k = k'
  /-- The cells that were there are as they were. -/
  cells : ∀ id : CellId, id.index < s.world.cells.cells.size →
    t.world.cells.cell id = s.world.cells.cell id
  /-- None has gone. -/
  size_le : s.world.cells.cells.size ≤ t.world.cells.cells.size
  /-- The open cells of the frame are listed. -/
  tracks : t.frame.toScope.Tracks t.world.cells
  /-- The register file is the same one. -/
  id : t.frame.id = s.frame.id
  /-- The cells that are given have been made. -/
  made : ∀ id ∈ ids, id.index < t.world.cells.cells.size

/-- Only the cells and the list of those on the registers matter. -/
theorem Captures.congr (h : Captures s t shares ids) (hcells : u.world.cells = t.world.cells)
    (hid : u.frame.id = t.frame.id) (hcaptured : u.frame.captured = t.frame.captured) :
    Captures s u shares ids where
  gives k id hk := by
    obtain ⟨j, hj, hgives⟩ := h.gives k id hk
    refine ⟨j, hj, ?_⟩
    cases hgives with
    | value kind fresh cell => exact .value kind fresh (hcells ▸ cell)
    | shared kind shared listed cell before =>
      refine .shared kind shared ?_ (hcells ▸ cell) before
      unfold Scope.cellOn? at listed ⊢
      rw [hcaptured]
      exact listed
    | apart kind apart fresh cell => exact .apart kind apart fresh (hcells ▸ cell)
    | handed kind held => exact .handed kind held
  alone := hcells ▸ h.alone
  cells := hcells ▸ h.cells
  size_le := hcells ▸ h.size_le
  tracks := h.tracks.congr hid hcaptured fun _ _ => by rw [hcells]
  id := hid.trans h.id
  made := hcells ▸ h.made

/-- The frame has moved past captures, which have given cells. -/
structure Passes (s t : Running) (shares : Bool) (ids : List CellId) : Prop
    extends Captures s t shares ids where
  /-- Of the frame, only the position and the list of its cells may differ. -/
  frame : t.frame =
    { s.frame with pc := s.frame.pc + ids.length, captured := t.frame.captured }
  /-- The calls that wait are the same. -/
  stack : t.stack = s.stack
  /-- Of the world, only the cells may differ. -/
  world : t.world = { s.world with cells := t.world.cells }

/-- An instruction makes a closure of a prototype that it names, and captures by reference share
registers or not. -/
inductive Names (s : Running) (i : Instruction) : Nat → Bool → Prop where
  /-- It makes one of a child of the running prototype. -/
  | newClosure {n index : Nat} (operation : i.operation = .newClosure)
    (distance : i.operands.d = .ofNat n) (child : s.prototype.children[n]? = some index) :
    Names s i index true
  /-- It makes one of the prototype that a constant names. -/
  | dupClosure {index : Nat} (operation : i.operation = .dupClosure)
    (constant : i.constant = .closure index) (known : index < s.vm.module.prototypes.size) :
    Names s i index false

namespace Passes

theorem registers (h : Passes s t shares ids) : t.frame.registers = s.frame.registers := by
  rw [h.frame]

theorem upvalues (h : Passes s t shares ids) : t.frame.upvalues = s.frame.upvalues := by
  rw [h.frame]

theorem prototype (h : Passes s t shares ids) : t.prototype = s.prototype := by
  unfold Running.prototype Running.vm
  rw [h.world, h.frame]

/-- The captures that follow are those that followed before. -/
theorem capture? (h : Passes s t shares ids) (k : Nat) :
    t.capture? k = s.capture? (ids.length + k) := by
  unfold Running.capture?
  rw [h.prototype, h.frame]
  simp only [Nat.add_assoc]

theorem allows_iff (h : Passes s t shares ids) : t.Allows j ↔ s.Allows j := by
  unfold Allows
  rw [h.upvalues]

theorem sound (h : Passes s t shares ids) (hs : s.Sound) : t.Sound where
  tracks := h.tracks
  known := h.upvalues ▸ hs.known.mono h.size_le

/-- Behind one capture stands what stood one further behind it before. -/
theorem capture?_succ (h : Passes s t shares [id]) (k : Nat) :
    t.capture? k = s.capture? (k + 1) := by
  rw [h.capture?, List.length_singleton, Nat.add_comm]

theorem complete_iff (h : Passes s t shares [id]) (hj : s.capture? 0 = some j)
    (hallows : s.Allows j) {count : Nat} : t.Complete count ↔ s.Complete (count + 1) := by
  constructor
  · intro ht k hk
    cases k with
    | zero => exact ⟨j, hj, hallows⟩
    | succ k =>
      obtain ⟨j', hj', hallows'⟩ := ht k (by omega)
      exact ⟨j', h.capture?_succ k ▸ hj', h.allows_iff.1 hallows'⟩
  · intro hs k hk
    obtain ⟨j', hj', hallows'⟩ := hs (k + 1) (by omega)
    exact ⟨j', (h.capture?_succ k).trans hj', h.allows_iff.2 hallows'⟩

end Passes

/-! ## One capture after another -/

/-- What a capture gives stays what it gives while others follow. -/
theorem Gives.later (h : Gives s t shares j id) (hpasses : Passes t u shares ids)
    (hid : t.frame.id = s.frame.id) (hmade : id.index < t.world.cells.cells.size) :
    Gives s u shares j id := by
  have hcell := hpasses.cells id hmade
  cases h with
  | value kind fresh cell => exact .value kind fresh (hcell.trans cell)
  | shared kind shared listed cell before =>
    refine .shared kind shared (hpasses.tracks.cellOn?_eq_some_iff.2 ?_) (hcell.trans cell) before
    rw [hcell, cell, hpasses.id, hid]
  | apart kind apart fresh cell => exact .apart kind apart fresh (hcell.trans cell)
  | handed kind held => exact .handed kind held

/-- What a capture gives is what it gives from the state before the captures that it follows. -/
theorem Gives.earlier (h : Gives t u shares j id) (hs : s.Sound)
    (hpasses : Passes s t shares ids) : Gives s u shares j id := by
  cases h with
  | value kind fresh cell =>
    refine .value kind (le_trans hpasses.size_le fresh) (cell.trans ?_)
    unfold Scope.register
    rw [hpasses.registers]
  | shared kind shared listed cell before =>
    refine .shared kind shared listed (hpasses.id ▸ cell) fun old hold => before old ?_
    have hopen := hs.tracks.cellOn?_eq_some_iff.1 hold
    rw [hpasses.tracks.cellOn?_eq_some_iff, hpasses.cells old (Cells.lt_of_open hopen), hopen,
      hpasses.id]
  | apart kind apart fresh cell =>
    exact .apart kind apart (le_trans hpasses.size_le fresh) cell
  | handed kind held => exact .handed kind (hpasses.upvalues ▸ held)

/-- A closed cell that a capture gives is new, unless the running closure has it. -/
theorem Gives.fresh (h : Gives s t shares j id) (hclosed : (t.world.cells.cell id).isOpen = false)
    (hhanded : ∀ k : Nat, s.frame.upvalues[k]? ≠ some id) :
    s.world.cells.cells.size ≤ id.index := by
  cases h with
  | value _ fresh | apart _ _ fresh => exact fresh
  | shared _ _ _ cell =>
    rw [cell] at hclosed
    cases hclosed
  | handed _ held => exact absurd held (hhanded _)

/-- A closed cell that was not there at first is not there before the captures that give it. -/
theorem Passes.new_of_closed (hs : s.Sound) (h : Passes s t shares [id])
    (hothers : Passes t u shares ids) {k : Nat} {other : CellId} (hother : ids[k]? = some other)
    (hnew : s.world.cells.cells.size ≤ other.index)
    (hclosed : (u.world.cells.cell other).isOpen = false) :
    t.world.cells.cells.size ≤ other.index := by
  obtain ⟨j, -, hgives⟩ := hothers.gives k other hother
  refine hgives.fresh hclosed fun k' hhanded => ?_
  exact absurd (hs.known k' other (h.upvalues ▸ hhanded)) (Nat.not_lt.2 hnew)

/-- Captures that follow a capture give their cells behind its one. -/
theorem Passes.cons (hs : s.Sound) (h : Passes s t shares [id]) (hothers : Passes t u shares ids) :
    Passes s u shares (id :: ids) := by
  have hmade : id.index < t.world.cells.cells.size := h.made id (by simp)
  refine ⟨⟨?gives, ?alone, ?cells, h.size_le.trans hothers.size_le, hothers.tracks,
    hothers.id.trans h.id, ?made⟩, ?frame, hothers.stack.trans h.stack, ?world⟩
  case gives =>
    intro k other hother
    cases k with
    | zero =>
      cases hother
      obtain ⟨j, hj, hgives⟩ := h.gives 0 id rfl
      exact ⟨j, hj, hgives.later hothers h.id hmade⟩
    | succ k =>
      obtain ⟨j, hj, hgives⟩ := hothers.gives k other hother
      refine ⟨j, ?_, hgives.earlier hs h⟩
      rw [← hj, h.capture?, List.length_singleton, Nat.add_comm]
  case alone =>
    intro k k' other hk hk' hnew hclosed
    cases k with
    | zero =>
      cases k' with
      | zero => rfl
      | succ k' =>
        cases hk
        exact absurd (h.new_of_closed hs hothers hk' hnew hclosed) (Nat.not_le.2 hmade)
    | succ k =>
      cases k' with
      | zero =>
        cases hk'
        exact absurd (h.new_of_closed hs hothers hk hnew hclosed) (Nat.not_le.2 hmade)
      | succ k' =>
        exact congrArg Nat.succ (hothers.alone k k' other hk hk'
          (h.new_of_closed hs hothers hk hnew hclosed) hclosed)
  case cells =>
    intro other hother
    rw [hothers.cells other (lt_of_lt_of_le hother h.size_le), h.cells other hother]
  case made =>
    intro other hother
    rcases List.mem_cons.1 hother with rfl | hother
    · exact lt_of_lt_of_le hmade hothers.size_le
    · exact hothers.made other hother
  case frame =>
    rw [hothers.frame, h.frame]
    simp only [List.length_cons, List.length_nil, Nat.zero_add, Nat.add_assoc, Nat.add_comm 1]
  case world =>
    rw [hothers.world, h.world]

/-- Without captures nothing happens. -/
theorem Passes.nil (hs : s.Sound) : Passes s s shares [] where
  gives k id hid := by cases hid
  alone k k' id hid := by cases hid
  cells id hid := rfl
  size_le := le_refl _
  tracks := hs.tracks
  id := rfl
  made id hid := by cases hid
  frame := rfl
  stack := rfl
  world := rfl

/-- The state behind the word of a capture. -/
def next (s : Running) : Running := { s with frame := { s.frame with pc := s.frame.pc + 1 } }

/-- A capture that gives a cell. -/
theorem Passes.single (hj : s.capture? 0 = some j)
    (hframe : t.frame = { s.frame with pc := s.frame.pc + 1, captured := t.frame.captured })
    (hstack : t.stack = s.stack) (hworld : t.world = { s.world with cells := t.world.cells })
    (hgives : Gives s t shares j id) (hmade : id.index < t.world.cells.cells.size)
    (hevolves : s.world.cells.Evolves t.world.cells)
    (hcells : ∀ other : CellId, other.index < s.world.cells.cells.size →
      t.world.cells.cell other = s.world.cells.cell other)
    (htracks : t.frame.toScope.Tracks t.world.cells) : Passes s t shares [id] := by
  refine ⟨⟨fun k other hother => ?gives, fun k k' other hk hk' _ _ => ?alone, hcells,
    hevolves.size_le, htracks, by rw [hframe], fun other hother => ?made⟩, hframe, hstack, hworld⟩
  case gives =>
    cases k with
    | zero =>
      cases hother
      exact ⟨j, hj, hgives⟩
    | succ k => cases hother
  case alone =>
    have hlt := (List.getElem?_eq_some_iff.1 hk).1
    have hlt' := (List.getElem?_eq_some_iff.1 hk').1
    simp only [List.length_singleton] at hlt hlt'
    omega
  case made => exact List.mem_singleton.1 hother ▸ hmade

end Running

namespace Scope

/-- A capture changes the list of cells alone. -/
theorem capture_scope (s : Scope) (store : Cells) (slot : Nat) :
    (s.capture store slot).2.1 =
      { s with captured := (s.capture store slot).2.1.captured } := by
  unfold capture
  split <;> rfl

end Scope

/-! ## Making closures -/

namespace Effect

variable {s t : Running} {shares : Bool} {j : Instruction}

theorem nextCapture?_eq (s : Running) : nextCapture? s =
    match s.capture? 0 with
    | some j => .ok (some j) s.next
    | none => .ok none s := by
  unfold nextCapture? Running.capture?
  simp only [prototype_bind, get_bind, Nat.add_zero]
  cases s.prototype.code[s.frame.pc]?.map Slot.asInstruction with
  | none => rfl
  | some j =>
    dsimp only [Option.filter]
    by_cases hcapture : j.opcode = .capture
    · rw [if_pos hcapture, if_pos (by simpa using hcapture)]
      rfl
    · rw [if_neg hcapture, if_neg (by simpa using hcapture)]
      rfl

theorem upvalue_of_some {index : Nat} {id : CellId} (h : s.frame.upvalues[index]? = some id) :
    upvalue index s = .ok id s := by
  unfold upvalue
  rw [h]

theorem upvalue_of_none {index : Nat} (h : s.frame.upvalues[index]? = none) :
    upvalue index s = .error (.fault (.upvalueRange index)) s := by
  unfold upvalue
  rw [h]

/-- A new closed cell is given by a capture that asks for one. -/
theorem passes_closedCell (shares : Bool) (hs : s.Sound) (hj : s.capture? 0 = some j)
    (value : Value)
    (hgives : ∀ t : Running, t.world.cells.cell ⟨s.world.cells.cells.size⟩ = .closed value →
      s.Gives t shares j ⟨s.world.cells.cells.size⟩) :
    ∃ id t, closedCell value s.next = .ok id t ∧ s.Passes t shares [id] := by
  have hcell : (s.world.cells.create (.closed value)).2.cell ⟨s.world.cells.cells.size⟩ =
      .closed value := by
    rw [Cells.cell_create, if_pos rfl]
  refine ⟨_, _, rfl, .single hj rfl rfl rfl (hgives _ hcell) ?_ (Cells.evolves_create _ _) ?_ ?_⟩
  · show s.world.cells.cells.size < (s.world.cells.create (.closed value)).2.cells.size
    simp [Cells.create]
  · intro other hother
    exact Cells.cell_create _ |>.trans (if_neg (Nat.ne_of_lt hother))
  · exact hs.tracks.congr rfl rfl fun _ _ => Cells.open_create_closed_iff value

/-- The cell that is open on a register is given by a capture that asks for it. -/
theorem passes_captureRegister (hs : s.Sound) (hj : s.capture? 0 = some j)
    (hkind : j.operands.a = 1) :
    ∃ id t, captureRegister j.operands.b s.next = .ok id t ∧ s.Passes t true [id] := by
  have hscope := s.frame.toScope.capture_scope s.world.cells j.operands.b
  have htracks := hs.tracks.capture j.operands.b
  have hcell := hs.tracks.cell_capture j.operands.b
  refine ⟨_, _, rfl, .single hj
    (congrArg (fun scope => { s.next.frame with toScope := scope }) hscope) rfl rfl ?_
    (Cells.lt_of_open hcell) (s.frame.toScope.evolves_capture _ _)
    (fun _ => s.frame.toScope.cell_capture_of_lt _) htracks⟩
  refine .shared hkind rfl (htracks.cellOn?_eq_some_iff.2 ?_) hcell fun old hold => ?_
  · rw [Scope.capture_id]
    exact hcell
  · show (s.frame.toScope.capture s.world.cells j.operands.b).1 = old
    unfold Scope.capture
    rw [hold]

/-- A capture that can be carried out gives a cell. -/
theorem passes_captureOf (shares : Bool) (hs : s.Sound) (hj : s.capture? 0 = some j)
    (hallows : s.Allows j) :
    ∃ id t, captureOf j shares s.next = .ok id t ∧ s.Passes t shares [id] := by
  obtain ⟨hkind, hhanded⟩ := hallows
  obtain hkind | hkind | hkind : j.operands.a = 0 ∨ j.operands.a = 1 ∨ j.operands.a = 2 := by omega
  · obtain ⟨id, t, heq, hpasses⟩ := passes_closedCell shares hs hj (s.frame.register j.operands.b)
      fun t hcell => .value hkind (le_refl _) hcell
    refine ⟨id, t, ?_, hpasses⟩
    unfold captureOf
    rw [hkind]
    exact heq
  · cases shares with
    | true =>
      obtain ⟨id, t, heq, hpasses⟩ := passes_captureRegister hs hj hkind
      refine ⟨id, t, ?_, hpasses⟩
      unfold captureOf
      rw [hkind]
      exact heq
    | false =>
      obtain ⟨id, t, heq, hpasses⟩ := passes_closedCell false hs hj .nil
        fun t hcell => .apart hkind rfl (le_refl _) hcell
      refine ⟨id, t, ?_, hpasses⟩
      unfold captureOf
      rw [hkind]
      exact heq
  · have hlt := hhanded hkind
    have hid : s.frame.upvalues[j.operands.b]? = some s.frame.upvalues[j.operands.b] :=
      Array.getElem?_eq_getElem hlt
    refine ⟨_, s.next, ?_, .single hj rfl rfl rfl (.handed hkind hid) (hs.known _ _ hid) (.refl _)
      (fun _ _ => rfl) hs.tracks⟩
    unfold captureOf
    rw [hkind]
    exact upvalue_of_some hid

/-- A capture that cannot be carried out raises a fault. -/
theorem captureOf_fault (shares : Bool) (h : ¬ s.Allows j) :
    ∃ f, captureOf j shares s.next = .error (.fault f) s.next := by
  by_cases hkind : j.operands.a ≤ 2
  · obtain ⟨htwo, hge⟩ : j.operands.a = 2 ∧ s.frame.upvalues.size ≤ j.operands.b := by
      unfold Running.Allows at h
      omega
    refine ⟨.upvalueRange j.operands.b, ?_⟩
    unfold captureOf
    rw [htwo]
    exact upvalue_of_none (Array.getElem?_eq_none hge)
  · obtain ⟨n, hn⟩ : ∃ n, j.operands.a = n + 3 := ⟨j.operands.a - 3, by omega⟩
    refine ⟨.unknownCapture (n + 3), ?_⟩
    unfold captureOf
    rw [hn]
    rfl

/-! ## All captures of a closure -/

variable (shares) (child : Prototype) {count : Nat}

theorem nextCapture?_of_capture (h : s.capture? 0 = some j) :
    nextCapture? s = .ok (some j) s.next := by
  rw [nextCapture?_eq, h]

theorem captures_of_complete (hs : s.Sound) (hcomplete : s.Complete count) :
    ∃ ids t, captures child shares count s = .ok ids t ∧ ids.length = count ∧
      s.Passes t shares ids := by
  induction count generalizing s with
  | zero => exact ⟨[], s, rfl, rfl, .nil hs⟩
  | succ count ih =>
    obtain ⟨j, hj, hallows⟩ := hcomplete 0 (Nat.succ_pos _)
    obtain ⟨id, t, hfirst, hpasses⟩ := passes_captureOf shares hs hj hallows
    obtain ⟨ids, u, hothers, hlength, hall⟩ := ih (hpasses.sound hs)
      ((hpasses.complete_iff hj hallows).2 hcomplete)
    refine ⟨id :: ids, u, ?_, by rw [List.length_cons, hlength], hpasses.cons hs hall⟩
    unfold captures
    rw [bind_of_ok (nextCapture?_of_capture hj)]
    dsimp only
    rw [bind_of_ok hfirst, bind_of_ok hothers]
    rfl

/-- Where one of the captures is missing or cannot be carried out, a fault is raised, and no
register has changed. -/
theorem captures_fault (hs : s.Sound) (hcomplete : ¬ s.Complete count) :
    ∃ f t, captures child shares count s = .error (.fault f) t ∧
      t.frame.registers = s.frame.registers := by
  induction count generalizing s with
  | zero => exact absurd (fun k hk => absurd hk (Nat.not_lt_zero k)) hcomplete
  | succ count ih =>
    unfold captures
    cases hj : s.capture? 0 with
    | none =>
      have hnext : nextCapture? s = .ok none s := by
        rw [nextCapture?_eq, hj]
      rw [bind_of_ok hnext]
      exact ⟨_, s, rfl, rfl⟩
    | some j =>
      rw [bind_of_ok (nextCapture?_of_capture hj)]
      dsimp only
      by_cases hallows : s.Allows j
      · -- the first capture goes well, so that one behind it does not
        obtain ⟨id, t, hfirst, hpasses⟩ := passes_captureOf shares hs hj hallows
        obtain ⟨f, u, hfails, hregisters⟩ := ih (hpasses.sound hs)
          fun hothers => hcomplete ((hpasses.complete_iff hj hallows).1 hothers)
        refine ⟨f, u, ?_, hregisters.trans hpasses.registers⟩
        rw [bind_of_ok hfirst, bind_of_error hfails]
      · obtain ⟨f, hfails⟩ := captureOf_fault shares hallows
        exact ⟨f, s.next, bind_of_error hfails, rfl⟩

/-- Captures that end well have given as many cells as were wanted. -/
theorem passes_of_captures {child : Prototype} {shares : Bool} {ids : List CellId} (hs : s.Sound)
    (h : captures child shares count s = .ok ids t) :
    ids.length = count ∧ s.Passes t shares ids := by
  by_cases hcomplete : s.Complete count
  · obtain ⟨ids', t', heq, hlength, hpasses⟩ :=
      captures_of_complete shares child hs hcomplete
    rw [h] at heq
    cases heq
    exact ⟨hlength, hpasses⟩
  · obtain ⟨f, t', heq, -⟩ := captures_fault shares child hs hcomplete
    rw [h] at heq
    cases heq

/-! ## The closure -/

end Effect

/-- An instruction that names a prototype makes a closure of it. -/
theorem Running.Names.execute {s : Running} {i : Instruction} {index : Nat} {shares : Bool}
    (h : s.Names i index shares) :
    Effect.execute i.operation i s =
      (do Effect.makeClosure i.operands.a index shares; return .next : Effect Outcome) s := by
  cases h with
  | newClosure operation distance child =>
    have hmakes : Effect.newClosure i s = Effect.makeClosure i.operands.a index true s := by
      unfold Effect.newClosure
      rw [Effect.prototype_bind, distance]
      simp only [child]
    rw [operation, Effect.result_bind, ← hmakes]
    exact Effect.result_bind _ _ _
  | dupClosure operation constant known =>
    have hmakes : Effect.dupClosure i s = Effect.makeClosure i.operands.a index false s := by
      unfold Effect.dupClosure
      rw [constant]
      simp only [Effect.vm_bind, known, if_true]
    rw [operation, Effect.result_bind, ← hmakes]
    exact Effect.result_bind _ _ _

end ScriptMachine
