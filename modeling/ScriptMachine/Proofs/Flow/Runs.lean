import ScriptMachine.Proofs.Flow.Slots

/-!
# Auxiliary words are never run

A frame of a run stands where its code begins, where an instruction of it has led, or where it waits
for a call.  So if no jump of a module leads to an auxiliary word, no frame of a machine of the
module ever stands at one, whatever breakpoints are set and whatever the host does.
-/

namespace ScriptMachine

namespace Machine

variable {m : Machine} {n : Module} {id : VmId} {place : Place}

/-! ## Places of a run -/

/-- The slots at which the frames of a run may go on. -/
def places (m : Machine) : List Place :=
  match m.control with
  | .run f => f.placeAt f.pc :: m.stack.places
  | _ => m.stack.places

theorem places_ofOutcome (outcome : Outcome) (t : Running) :
    (ofOutcome (.ok outcome t)).places =
      (outcome.resumes t.frame.pc).map t.frame.placeAt ++ t.stack.places := by
  cases outcome <;> rfl

theorem places_ofSettled (stack : Stack) (r : World × Settled FunctionCall (List Value)) :
    (ofSettled stack r).places = stack.places := by
  obtain ⟨w, result | failure | ⟨target, resume⟩⟩ := r <;> rfl

/-- A call begins where the code of its closure begins. -/
theorem places_enter {w : World} {stack : Stack} {c : Closure} {vm : Vm} {args : List Value}
    (h : place ∈ (enter w stack c vm args).places) : place ∈ stack.places ∨ place.slot = 0 := by
  unfold enter at h
  split at h
  · exact .inl h
  · split at h
    · exact .inl h
    · dsimp only at h
      split at h
      · exact .inl h
      · rcases List.mem_cons.1 h with rfl | hstack
        · exact .inr rfl
        · exact .inl hstack

theorem places_call {w : World} {stack : Stack} {function : Value} {args : List Value}
    (h : place ∈ (call w stack function args).places) :
    place ∈ stack.places ∨ place.slot = 0 := by
  unfold call at h
  split at h
  · split at h
    · rw [places_ofSettled] at h
      exact .inl h
    · exact places_enter h
    · exact .inl h
  · exact .inl h

/-! ## Steps -/

/-- An instruction of a machine that is about to run stands in a version of its code. -/
theorem versionOf_of_next {w : World} {f : Frame} {i : Instruction} (hw : w.Runs f.vm n)
    (hi : nextInstruction? w f = some i) :
    ∃ vm s s', w.vm? f.vm = some vm ∧ (vm.prototype f.prototype).code[f.pc]? = some s ∧
      (n.prototype f.prototype).code[f.pc]? = some s' ∧ s.VersionOf s' ∧ i = s.asInstruction := by
  obtain ⟨vm, hvm, hversion⟩ := hw
  unfold nextInstruction? at hi
  simp only [hvm] at hi
  split at hi
  · rcases rel_cases (hversion.prototype f.prototype f.pc) with ⟨hs, hs'⟩ | ⟨s, s', hs, hs', hss'⟩
    · rw [show (vm.prototype f.prototype).code[f.pc]? = none from hs] at hi
      cases hi
    · rw [show (vm.prototype f.prototype).code[f.pc]? = some s from hs] at hi
      exact ⟨vm, s, s', hvm, hs, hs', hss', (Option.some.inj hi).symm⟩
  · cases hi

/-- The instruction that is about to run leads its frame to a place. -/
def LeadsTo (m : Machine) (n : Module) (place : Place) : Prop :=
  ∃ f i, m.dispatching? = some (f, i) ∧ f.vm = place.vm ∧ f.prototype = place.prototype ∧
    (n.prototype f.prototype).Leads i (f.pc + 1) place.slot

/-- What a frame has done in code of the module leads it to places that it says. -/
theorem places_of_ends {s : Running} {r : EStateM.Result Failure Running Outcome}
    {P : Nat → Prop} (hcode : s.SameCode (Effect.stateOf r))
    (hslots : s.frame.vm = id → ∀ outcome t, r = .ok outcome t →
      ∀ slot ∈ outcome.resumes t.frame.pc, P slot)
    (h : place ∈ (ofOutcome r).places) (hid : place.vm = id) :
    place ∈ s.stack.places ∨ ∃ slot, P slot ∧ place = s.frame.placeAt slot := by
  cases r with
  | error failure t =>
    have hstack : place ∈ t.stack.places := h
    exact .inl (hcode.places ▸ hstack)
  | ok outcome t =>
    rw [places_ofOutcome] at h
    rcases List.mem_append.1 h with hresumes | hstack
    · obtain ⟨slot, hslot, rfl⟩ := List.mem_map.1 hresumes
      have hvm : t.frame.vm = s.frame.vm := hcode.vm
      refine .inr ⟨slot, hslots (hvm.symm.trans hid) outcome t rfl slot hslot, ?_⟩
      unfold Frame.placeAt
      rw [hvm, show t.frame.prototype = s.frame.prototype from hcode.prototype]
    · exact .inl (hcode.places ▸ hstack)

/-- Where the frames of a machine may go on after a step, they might before, or a call has begun, or
an instruction has led there. -/
theorem places_step (hm : m.world.Runs id n) (h : place ∈ m.step.places) (hid : place.vm = id) :
    place ∈ m.places ∨ place.slot = 0 ∨ m.LeadsTo n place := by
  have hsteady := Running.steady_sameCode
  obtain ⟨w, stack, control⟩ := m
  cases control with
  | run f =>
    unfold step at h
    dsimp only at h
    cases hi : nextInstruction? w f with
    | none =>
      rw [hi] at h
      exact .inl (List.mem_cons_of_mem _ h)
    | some i =>
      rw [hi] at h
      have hcode := Effect.keeps_dispatch hsteady i ⟨w, f, stack⟩
      have hleads : f.vm = id → (Effect.dispatch i).Ends ⟨w, f, stack⟩ fun outcome t =>
          ∀ slot ∈ outcome.resumes t.frame.pc,
            (n.prototype f.prototype).Leads i (f.pc + 1) slot := by
        rintro rfl
        obtain ⟨vm, s, s', -, -, -, hss', rfl⟩ := versionOf_of_next hm hi
        exact Effect.ends_dispatch (s := ⟨w, f, stack⟩) hm hss'.operation
      rcases places_of_ends hcode hleads h hid with hold | ⟨slot, hslot, rfl⟩
      · exact .inl (List.mem_cons_of_mem _ hold)
      · refine .inr (.inr ⟨f, i, ?_, rfl, rfl, hslot⟩)
        unfold dispatching?
        simp only [hi, Option.map_some]
  | call function args =>
    rcases places_call h with hold | hzero
    · exact .inl hold
    · exact .inr (.inl hzero)
  | give values =>
    cases stack with
    | nil => exact .inl h
    | cons waiting stack =>
      cases waiting with
      | frame f next =>
        have hcode := Effect.keeps_accept hsteady.toMoving next values ⟨w, f, stack⟩
        rcases places_of_ends (P := (· ∈ next.resumes f.pc)) hcode
          (fun _ => goes_accept next values ⟨w, f, stack⟩) h hid with hold | ⟨slot, hslot, rfl⟩
        · exact .inl (List.mem_append_right _ hold)
        · exact .inl (List.mem_append_left _ (List.mem_map_of_mem hslot))
      | native resume =>
        unfold step at h
        dsimp only at h
        rw [places_ofSettled] at h
        exact .inl h
  | fail failure =>
    cases stack with
    | nil => exact .inl h
    | cons waiting stack =>
      cases waiting with
      | frame f next => exact .inl (List.mem_append_right _ h)
      | native resume =>
        unfold step at h
        dsimp only at h
        rw [places_ofSettled] at h
        exact .inl h

/-! ## Runs -/

/-- No frame of a machine stands at an auxiliary word of its module. -/
structure OnInstructions (m : Machine) (id : VmId) (n : Module) : Prop where
  /-- The machine runs a version of the module. -/
  runs : m.world.Runs id n
  /-- The slots at which its frames may go on hold no auxiliary words. -/
  places : ∀ place ∈ m.places, place.vm = id →
    (n.prototype place.prototype).isAux place.slot = false

/-- What a frame runs that stands at no auxiliary word is an instruction. -/
theorem OnInstructions.instruction {f : Frame} {i : Instruction} (h : m.OnInstructions f.vm n)
    (hi : m.dispatching? = some (f, i)) :
    ∃ vm j, m.world.vm? f.vm = some vm ∧ (vm.prototype f.prototype).instruction? f.pc = some i ∧
      (n.prototype f.prototype).code[f.pc]? = some (.instruction j) ∧ i.VersionOf j := by
  obtain ⟨hf, hi⟩ := dispatching_spec hi
  obtain ⟨vm, s, s', hvm, hs, hs', hss', rfl⟩ := versionOf_of_next h.runs hi
  have hplace : f.placeAt f.pc ∈ m.places := by
    unfold Machine.places
    rw [hf]
    exact List.mem_cons_self
  cases hss' with
  | @instruction i j hij =>
    exact ⟨vm, j, hvm, Prototype.instruction?_eq_some_iff.2 hs, hs', hij⟩
  | aux word =>
    have haux := Prototype.isAux_iff.2 ⟨word, hs'⟩
    rw [show (n.prototype f.prototype).isAux f.pc = false from h.places _ hplace rfl] at haux
    cases haux

theorem OnInstructions.step (hn : n.Loaded) (hjumps : n.JumpsLand) (h : m.OnInstructions id n) :
    m.step.OnInstructions id n := by
  refine ⟨(step_evolves m).runs h.runs, fun place hplace hid => ?_⟩
  rcases places_step h.runs hplace hid with hold | hzero | ⟨f, i, hi, hvm, hprototype, hleads⟩
  · exact h.places place hold hid
  · rw [hzero]
    cases hcode : (n.prototype place.prototype).code[0]? with
    | none =>
      unfold Prototype.isAux
      rw [hcode]
    | some s => exact (hn.wellFormed.prototypes _ (Module.mem_of_code hcode)).isAux_zero
  · obtain ⟨vm, j, -, -, hj, hij⟩ := OnInstructions.instruction (hvm.trans hid ▸ h) hi
    have hmem := Module.mem_of_code hj
    rw [← hprototype]
    exact (hn.wellFormed.prototypes _ hmem).isAux_of_leads (hn.size_lt _ hmem) (hjumps _ hmem) hj
      hij hleads

theorem OnInstructions.iterate (hn : n.Loaded) (hjumps : n.JumpsLand) (h : m.OnInstructions id n)
    (k : Nat) : (Machine.step^[k] m).OnInstructions id n := by
  induction k with
  | zero => exact h
  | succ k ih =>
    rw [Function.iterate_succ_apply']
    exact ih.step hn hjumps

end Machine

end ScriptMachine
