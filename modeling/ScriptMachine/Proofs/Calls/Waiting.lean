import ScriptMachine.Proofs.Capture.Lifetime
import ScriptMachine.Proofs.Machine.Closing
import ScriptMachine.Proofs.Machine.Registers

/-!
# Calls that wait

From the moment at which a call begins until it hands on its results or a failure, the calls that
wait for it stay as they are.  All that can change of them are registers for which there is an open
cell, since whoever has the cell can store in the register.
-/

namespace ScriptMachine

/-! ## Moments that runs come to -/

namespace Machine

variable {m n : Machine}

/-- The moment at which nothing has happened yet. -/
def idle : Machine := ⟨{}, [], .give []⟩

/-- Some run comes to a moment, whatever the host has done before it and between its calls. -/
def Reached (m : Machine) : Prop := idle.Later m

theorem acts_cells {w w' : World} (h : w.Acts w') :
    w'.cells = w.cells ∧ w'.nextFrame = w.nextFrame := by
  cases h with
  | performs p => exact p.settle_cells w
  | loads h =>
    obtain ⟨m, heap, -, heq⟩ := World.createVm_of_loadBytes h
    cases heq
    exact ⟨rfl, rfl⟩
  | creates module environment settings => exact ⟨rfl, rfl⟩
  | makes body => exact ⟨rfl, rfl⟩
  | stores heap => exact ⟨rfl, rfl⟩
  | resets id => exact ⟨rfl, rfl⟩

theorem Anchored.next (hm : m.Anchored) (h : m.Next n) : n.Anchored := by
  cases h with
  | step => exact (advances_step m).anchored hm
  | acts ended hacts =>
    obtain ⟨hcells, hnext⟩ := acts_cells hacts
    unfold Anchored at hm ⊢
    rw [hcells, hnext]
    exact hm
  | calls ended function args => exact anchored_start (hm.not_open (frames_of_outcome ended)) _ _

theorem Reached.anchored (h : m.Reached) : m.Anchored := by
  induction h with
  | refl => exact anchored_start (fun _ => rfl) .nil []
  | tail _ next ih => exact ih.next next

theorem Reached.iterate (h : m.Reached) (k : Nat) : (step^[k] m).Reached := by
  induction k with
  | zero => exact h
  | succ k ih =>
    rw [Function.iterate_succ_apply']
    exact ih.tail .step

/-- A call of a machine that has just been loaded. -/
theorem reached_start {w : World} {bytes : Bytes} {environment : Option TableId}
    {settings : Settings} {entry : Entry}
    (h : World.loadBytes {} bytes environment settings = .ok (entry, w)) (function : Value)
    (args : List Value) : (start w function args).Reached := by
  have hloaded : idle.Next ⟨w, [], .give []⟩ := .acts (m := idle) rfl (.loads h)
  exact .tail (.single hloaded) (.calls rfl function args)

end Machine

/-! ## Frames that wait -/

/-- A frame is the same but for registers of open cells. -/
structure Frame.Kept (f g : Frame) : Prop where
  /-- Only registers may differ. -/
  frame : g = { f with registers := g.registers }
  /-- There are as many of them. -/
  size : g.registers.size = f.registers.size
  /-- A register that no listed cell stands for holds what it held. -/
  register : ∀ slot, (∀ id, (slot, id) ∉ f.captured) → g.register slot = f.register slot

namespace Frame.Kept

variable {f g h : Frame}

theorem refl (f : Frame) : f.Kept f := ⟨rfl, rfl, fun _ _ => rfl⟩

theorem captured (hfg : f.Kept g) : g.captured = f.captured := by rw [hfg.frame]

theorem id_eq (hfg : f.Kept g) : g.id = f.id := by rw [hfg.frame]

theorem vm (hfg : f.Kept g) : g.vm = f.vm := by rw [hfg.frame]

theorem trans (hfg : f.Kept g) (hgh : g.Kept h) : f.Kept h where
  frame := by rw [hgh.frame, hfg.frame]
  size := hgh.size.trans hfg.size
  register slot hslot := by
    rw [hgh.register slot (hfg.captured ▸ hslot), hfg.register slot hslot]

/-- A register of a listed cell may change. -/
theorem put {slot : Nat} {id : CellId} (h : (slot, id) ∈ f.captured) (value : Value) :
    f.Kept (f.put slot value) where
  frame := rfl
  size := size_put
  register _ hk := register_put_of_ne fun heq => hk id (heq ▸ h)

end Frame.Kept

/-- A call that waits is the same but for registers of open cells. -/
inductive Suspended.Kept : Suspended → Suspended → Prop where
  /-- A call of a closure. -/
  | frame {f g : Frame} (next : Continuation) (h : f.Kept g) : Kept (.frame f next) (.frame g next)
  /-- A call of a function of the host. -/
  | native (resume : Except Failure (List Value) → FunctionProgram) :
    Kept (.native resume) (.native resume)

/-- The calls that wait are the same but for registers of open cells. -/
abbrev Stack.Kept (stack stack' : Stack) : Prop := List.Forall₂ Suspended.Kept stack stack'

namespace Stack

variable {stack stack' stack'' : Stack}

theorem Kept.refl (stack : Stack) : stack.Kept stack := by
  induction stack with
  | nil => exact .nil
  | cons waiting stack ih =>
    cases waiting with
    | frame f next => exact .cons (.frame next (.refl f)) ih
    | native resume => exact .cons (.native resume) ih

theorem Kept.trans (h : stack.Kept stack') (h' : stack'.Kept stack'') : stack.Kept stack'' := by
  induction h generalizing stack'' with
  | nil => exact h'
  | cons hwaiting _ ih =>
    obtain ⟨waiting, rest, hwaiting', hrest, rfl⟩ := List.forall₂_cons_left_iff.1 h'
    refine .cons ?_ (ih hrest)
    cases hwaiting with
    | frame next hfg =>
      cases hwaiting' with
      | frame _ hgh => exact .frame next (hfg.trans hgh)
    | native resume => exact hwaiting'

/-- What all moments of a frame have in common is the same of the frames. -/
theorem Kept.map_frames {α : Type} {p : Frame → α} (hp : ∀ {f g : Frame}, f.Kept g → p g = p f)
    (h : stack.Kept stack') : stack'.frames.map p = stack.frames.map p := by
  induction h with
  | nil => rfl
  | cons hwaiting _ ih =>
    cases hwaiting with
    | frame next hfg => simp [hp hfg, ih]
    | native resume => exact ih

/-- Storing in a register of an open cell keeps the calls that wait. -/
theorem kept_putRegister {id : FrameId} {slot : Nat} (cell : CellId)
    (h : ∀ f ∈ stack.frames, f.id = id → (slot, cell) ∈ f.captured) (value : Value) :
    stack.Kept (stack.putRegister id slot value) := by
  induction stack with
  | nil => exact .nil
  | cons waiting stack ih =>
    cases waiting with
    | native resume => exact .cons (.native resume) (ih h)
    | frame f next =>
      refine .cons ?_ (ih fun g hg => h g (List.mem_cons_of_mem _ hg))
      by_cases hid : f.id = id
      · simp only [if_pos hid]
        exact .frame next (.put (h f List.mem_cons_self hid) value)
      · simp only [if_neg hid]
        exact .frame next (.refl f)

end Stack

/-- One state has come out of another one by effects, while the calls below have waited. -/
structure Running.Waits (s t : Running) : Prop where
  /-- Open cells are still listed. -/
  follows : s.Follows t
  /-- The calls that wait are the same but for registers of open cells. -/
  stack : s.Anchored → s.stack.Kept t.stack

theorem Running.Follows.waits {s t : Running} (h : s.Follows t) (hstack : t.stack = s.stack) :
    s.Waits t := ⟨h, fun _ => hstack ▸ .refl _⟩

/-- Every basic effect lets the calls below wait. -/
theorem Running.steady_waits : Effect.Steady Running.Waits where
  refl s := (steady_follows.refl s).waits rfl
  trans h h' := ⟨h.follows.trans h'.follows,
    fun hs => (h.stack hs).trans (h'.stack (h.follows.anchored hs))⟩
  fault s f := (steady_follows.fault s f).waits rfl
  frame s f hf hpc := (steady_follows.frame s f hf hpc).waits rfl
  moved s pc := (steady_follows.moved s pc).waits rfl
  setIterator s slot bridge := (steady_follows.setIterator s slot bridge).waits rfl
  dropIterator s slot := (steady_follows.dropIterator s slot).waits rfl
  heap s heap := (steady_follows.heap s heap).waits rfl
  perform s p h := (steady_follows.perform s p h).waits rfl
  confusion s := (steady_follows.confusion s).waits rfl
  countHit s := (steady_follows.countHit s).waits rfl
  trace s line := (steady_follows.trace s line).waits rfl
  writeCell id value s := by
    refine ⟨steady_follows.writeCell id value s, fun hs => ?_⟩
    unfold Effect.after Effect.writeCell
    split
    · exact .refl _
    · split
      · exact .refl _
      · -- the cell is open on a frame that waits, which lists it
        rename_i frame slot hopen _
        refine Stack.kept_putRegister id (fun f hf hid => ?_) value
        exact ((hs.tracks f (List.mem_cons_of_mem _ hf)).mem_iff slot id).2 (hid.symm ▸ hopen)
  closedCell value s := (steady_follows.closedCell value s).waits rfl
  captureRegister slot s := (steady_follows.captureRegister slot s).waits rfl
  closeFrom slot s := (steady_follows.closeFrom slot s).waits rfl
  createClosure index upvalues s := (steady_follows.createClosure index upvalues s).waits rfl

/-! ## During a call -/

namespace Machine

variable {m : Machine} {base : Stack}

/-- A step leaves the calls that wait as they are, and may put another one on them. -/
theorem waiting_step (hm : m.Anchored) :
    ∃ above stack, m.step.stack = above ++ stack ∧ m.waiting.Kept stack := by
  have hacting : ∀ s : Running, s.world = m.world → s.frames = m.frames → s.Anchored := by
    intro s hworld hframes
    unfold Running.Anchored
    rw [hworld, hframes]
    exact hm
  cases move Running.steady_waits m with
  | goesOn s t hworld hframes h _ _ _ hwaiting hstack =>
    obtain ⟨above, hstack⟩ := hstack
    exact ⟨above, t.stack, hstack, hwaiting ▸ h.stack (hacting s hworld hframes)⟩
  | ends s t result hworld hframes h _ hstep hwaiting =>
    refine ⟨[], t.stack, ?_, hwaiting ▸ h.stack (hacting s hworld hframes)⟩
    rw [hstep]
    cases result <;> rfl
  | enters c vm args _ _ _ _ hwaiting hstack => exact ⟨[], m.stack, hstack, hwaiting ▸ .refl _⟩
  | overflows c vm args _ _ hstep hwaiting =>
    refine ⟨[], m.stack, ?_, hwaiting ▸ .refl _⟩
    rw [hstep]
    rfl
  | rests p _ _ _ hstack =>
    obtain ⟨above, hstack⟩ := hstack
    exact ⟨above, m.waiting, hstack, .refl _⟩

/-- A call is going on for which some calls have been waiting. -/
def Within (base : Stack) (m : Machine) : Prop :=
  ∃ above stack, m.stack = above ++ stack ∧ base.Kept stack ∧ (above = [] → m.handed? = none)

/-- A call is over for which some calls have been waiting: its results or its failure are handed to
the first of them. -/
def Over (base : Stack) (m : Machine) : Prop := base.Kept m.stack ∧ m.handed? ≠ none

/-- A call that is going on goes on after a step, or is over. -/
theorem Within.step (hm : m.Anchored) (h : m.Within base) :
    m.step.Within base ∨ m.step.Over base := by
  obtain ⟨above, stack, hstack, hkept, hnone⟩ := h
  -- the calls that go on waiting are those below and some of those above
  obtain ⟨above', hwaiting⟩ : ∃ above', m.waiting = above' ++ stack := by
    unfold waiting
    cases hhanded : m.handed? with
    | none => exact ⟨above, hstack⟩
    | some result =>
      cases above with
      | nil =>
        rw [hnone rfl] at hhanded
        cases hhanded
      | cons first above =>
        rw [hstack]
        exact ⟨above, rfl⟩
  obtain ⟨more, stack', hstack', hkept'⟩ := waiting_step hm
  rw [hwaiting] at hkept'
  have hbelow := List.forall₂_drop above'.length hkept'
  rw [List.drop_left] at hbelow
  have hsplit : m.step.stack =
      (more ++ stack'.take above'.length) ++ stack'.drop above'.length := by
    rw [hstack', List.append_assoc, List.take_append_drop]
  by_cases hover : more ++ stack'.take above'.length = [] ∧ m.step.handed? ≠ none
  · obtain ⟨hnil, hhanded⟩ := hover
    rw [hnil, List.nil_append] at hsplit
    exact .inr ⟨hsplit ▸ hkept.trans hbelow, hhanded⟩
  · refine .inl ⟨_, _, hsplit, hkept.trans hbelow, fun hnil => ?_⟩
    by_contra hhanded
    exact hover ⟨hnil, hhanded⟩

/-- A call goes on for all of a number of steps, or it is over after one of them for the first
time. -/
theorem Within.iterate (hm : m.Anchored) (h : m.Within base) (k : Nat) :
    (∀ j ≤ k, (Machine.step^[j] m).Within base) ∨
      ∃ j ≤ k, (Machine.step^[j] m).Over base ∧ ∀ i < j, (Machine.step^[i] m).Within base := by
  induction k with
  | zero =>
    left
    intro j hj
    rw [Nat.le_zero.1 hj]
    exact h
  | succ k ih =>
    rcases ih with hall | ⟨j, hj, hover, hbefore⟩
    · have hstep := (hall k le_rfl).step ((advances_iterate m k).anchored hm)
      rw [← Function.iterate_succ_apply' Machine.step k m] at hstep
      rcases hstep with hwithin | hover
      · left
        intro j hj
        rcases Nat.le_or_eq_of_le_succ hj with hle | rfl
        · exact hall j hle
        · exact hwithin
      · exact .inr ⟨k + 1, le_rfl, hover, fun i hi => hall i (Nat.le_of_lt_succ hi)⟩
    · exact .inr ⟨j, hj.trans (Nat.le_succ k), hover, hbefore⟩

/-- A call has just begun. -/
theorem within_of_call {function : Value} {args : List Value}
    (h : m.control = .call function args) : m.Within m.stack := by
  refine ⟨[], m.stack, rfl, .refl _, fun _ => ?_⟩
  unfold handed?
  rw [h]

end Machine

end ScriptMachine
