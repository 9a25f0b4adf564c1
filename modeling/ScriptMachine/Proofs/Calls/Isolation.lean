import ScriptMachine.Proofs.Calls.Waiting

/-!
# Calls are isolated from their caller

A frame that makes a call waits until the results come back.  Whatever runs in between, it then goes
on behind the call, with its extra arguments, its traversals and its registers as they were, but for
the registers that take the results and those for which it has an open cell.
-/

namespace ScriptMachine

/-! ## What a call leaves behind -/

/-- The values that a call stores: all results when `wanted` is zero, and else one less than it, nil
being added where there are too few. -/
def resultWindow (wanted : Nat) (results : List Value) : List Value :=
  if wanted = 0 then results else fitTo (wanted - 1) results

/-- What is left of a frame, as it was before a call, when it goes on after it.  The call has given
some results, of which it takes as many as it wants from a register on. -/
structure Frame.Returned (f : Frame) (base wanted : Nat) (results : List Value) (g : Frame) :
    Prop where
  /-- It is the same call: its extra arguments, its traversals and its open cells are as before. -/
  call : f.SameCall g
  /-- It stands at the slot behind the call. -/
  pc : g.pc = f.pc + 1
  /-- Its top is the last result when all results are wanted, and as before otherwise. -/
  top : g.top = if wanted = 0 then (base : Int) + results.length - 1 else f.top
  /-- No register is lost. -/
  size_le : f.registers.size ≤ g.registers.size
  /-- There are registers for the results. -/
  room : base + (resultWindow wanted results).length ≤ g.registers.size
  /-- They hold the results. -/
  window : g.slice base (resultWindow wanted results).length = resultWindow wanted results
  /-- Any other register holds what it held, unless the frame has an open cell for it. -/
  register : ∀ slot < f.registers.size,
    slot < base ∨ base + (resultWindow wanted results).length ≤ slot →
      (∀ id, (slot, id) ∉ f.captured) → g.register slot = f.register slot
  /-- If it is a new one, it holds nil. -/
  appended : ∀ slot, f.registers.size ≤ slot →
    slot < base ∨ base + (resultWindow wanted results).length ≤ slot →
      (∀ id, (slot, id) ∉ f.captured) → g.register slot = .nil

namespace Frame

variable {f g h : Frame}

theorem Kept.sameCall (hfg : f.Kept g) : f.SameCall g := by
  rw [hfg.frame]
  exact ⟨rfl, rfl, rfl, rfl, rfl, rfl, rfl⟩

theorem register_of_size_le {slot : Nat} (hslot : f.registers.size ≤ slot) :
    f.register slot = .nil := by
  unfold Scope.register
  rw [Array.getD_eq_getD_getElem?, Array.getElem?_eq_none hslot, Option.getD_none]

/-- A frame makes a call, waits, and stores the results. -/
theorem returned_of_stored {before waited roomy : Frame} {current base wanted : Nat}
    {results : List Value} (hbefore : Grown { f with current, pc := f.pc + 1 } before)
    (hwaited : before.Kept waited) (hroomy : waited.Grown roomy)
    (hroom : base + (resultWindow wanted results).length ≤ roomy.registers.size) :
    f.Returned base wanted results
      { roomy.putAll base (resultWindow wanted results) with
        top := if wanted = 0 then (base : Int) + results.length - 1 else roomy.top } := by
  have hcall : f.SameCall roomy :=
    ((f.sameCall_moved _ _ _).trans hbefore.sameCall).trans
      (hwaited.sameCall.trans hroomy.sameCall)
  have htop : roomy.top = f.top := by
    rw [hroomy.top, hwaited.frame]
    exact hbefore.top
  have hpc : roomy.pc = f.pc + 1 := by
    rw [hroomy.pc, hwaited.frame]
    exact hbefore.pc
  -- up to the moment at which the results are stored, only open cells can have changed a register
  have hregister : ∀ slot, (∀ id, (slot, id) ∉ f.captured) →
      roomy.register slot = f.register slot := by
    intro slot hslot
    have hcaptured : before.captured = f.captured := by rw [hbefore.frame]
    calc roomy.register slot = waited.register slot := hroomy.register slot
      _ = before.register slot := hwaited.register slot (hcaptured ▸ hslot)
      _ = f.register slot := hbefore.register slot
  have hstored : ∀ slot, slot < base ∨ base + (resultWindow wanted results).length ≤ slot →
      (roomy.putAll base (resultWindow wanted results)).register slot = roomy.register slot := by
    rintro slot (hbelow | habove)
    · exact register_putAll_of_lt hbelow
    · exact register_putAll_of_le habove
  refine ⟨?_, ?_, ?_, ?_, ?_, slice_putAll hroom, ?_, ?_⟩
  · exact (hcall.trans (roomy.sameCall_putAll _ _)).trans (sameCall_moved _ _ _ _)
  · exact (pc_putAll roomy).trans hpc
  · dsimp only
    rw [htop]
  · calc f.registers.size ≤ before.registers.size := hbefore.size_le
      _ = waited.registers.size := hwaited.size.symm
      _ ≤ roomy.registers.size := hroomy.size_le
      _ = _ := size_putAll.symm
  · exact hroom.trans_eq size_putAll.symm
  · intro slot _ houtside hslot
    exact (hstored slot houtside).trans (hregister slot hslot)
  · intro slot hnew houtside hslot
    exact ((hstored slot houtside).trans (hregister slot hslot)).trans (register_of_size_le hnew)

end Frame

/-! ## Instructions that call -/

namespace Effect

variable {s : Running}

theorem ends_ensure (size : Nat) : (ensure size).Ends s fun _ t =>
    s.frame.Grown t.frame ∧ size ≤ t.frame.registers.size := by
  intro _ t h
  rw [ensure_eq] at h
  split at h
  · rename_i f hf
    cases h
    exact ⟨Frame.grown_ensure? hf, (Frame.ensure?_spec hf).2.1⟩
  · cases h

theorem ends_values (first count : Nat) : (values first count).Ends s fun _ t =>
    s.frame.Grown t.frame := by
  refine (ends_ensure _).bind fun _ t ht => ?_
  intro _ u h
  cases h
  exact ht.1

theorem ends_storeResults (base wanted : Nat) (results : List Value) :
    (storeResults base wanted results).Ends s fun _ t => ∃ g : Frame, s.frame.Grown g ∧
      base + (resultWindow wanted results).length ≤ g.registers.size ∧
      t.frame = { g.putAll base (resultWindow wanted results) with
        top := if wanted = 0 then (base : Int) + results.length - 1 else g.top } := by
  unfold storeResults resultWindow
  by_cases hwanted : wanted = 0
  · simp only [if_pos hwanted]
    refine (ends_ensure _).bind fun _ t ht => ?_
    intro _ u h
    cases h
    exact ⟨t.frame, ht.1, ht.2, rfl⟩
  · simp only [if_neg hwanted]
    refine (ends_ensure _).bind fun _ t ht => ?_
    intro _ u h
    cases h
    refine ⟨t.frame, ht.1, ?_, ?_⟩
    · rw [length_fitTo]
      exact ht.2
    · rw [← t.frame.top_putAll]

/-- An instruction that calls makes room for the arguments, and asks for the results where the
function stands. -/
theorem ends_call (i : Instruction) : (call i).Ends s fun outcome t => s.frame.Grown t.frame ∧
    ∃ function args, outcome = .call function args (.results i.operands.a i.operands.c) := by
  refine ((aside_interrupt _).ends s).bind fun _ t ht => ?_
  rw [← ht.frame]
  have hcount : (countFrom (i.operands.a + 1) i.operands.b).Ends t fun _ u => u = t := by
    intro _ u h
    cases h
    rfl
  refine hcount.bind fun count u hu => ?_
  subst hu
  refine (ends_values _ _).bind fun args v hv => ?_
  refine Ends.bind (P := fun _ w => w = v) (fun _ w h => by cases h; rfl) fun function w hw => ?_
  subst hw
  exact ends_pure ⟨hv, function, args, rfl⟩

/-- Unless a breakpoint ends its frame, an instruction that calls moves the frame on and lets it
wait. -/
theorem ends_dispatch_call {i : Instruction} (hcall : i.operation = .call) :
    (dispatch i).Ends s fun outcome t => (∃ results, outcome = .leave results) ∨
      s.advanced.frame.Grown t.frame ∧
        ∃ function args, outcome = .call function args (.results i.operands.a i.operands.c) := by
  rw [dispatch_eq]
  refine (ends_prelude i).bind fun early t ht => ?_
  rw [← ht.frame]
  cases early with
  | some results => exact ends_pure (.inl ⟨results, rfl⟩)
  | none =>
    show (execute i.operation i).Ends t _
    rw [hcall]
    exact (ends_call i).mono fun outcome u hu => .inr hu

end Effect

/-! ## Runs -/

namespace Machine

variable {m : Machine} {f g : Frame} {i : Instruction} {next : Continuation} {base : Stack}
  {k : Nat}

/-- A frame that will be in progress does not end. -/
theorem Anchored.ending_ne (hm : m.Anchored) {id : FrameId} (hk : 0 < k)
    (hid : id ∈ (step^[k] m).frameIds) {s : Running} {result : Except Failure (List Value)}
    (h : m.ending? = some (s, result)) : s.frame.id ≠ id := by
  rintro rfl
  exact hm.not_mem_of_ending h (advances_later m hk) hid

/-- What a frame that acts does, it does to the same frame. -/
theorem id_of_keeps {s t : Running} (h : s.Follows t) : t.frame.id = s.frame.id :=
  (List.cons.inj h.ids).1

/-- A frame that makes a call and is in progress later waits for the call, which has begun. -/
theorem call_begins (hm : m.Anchored) (hi : m.dispatching? = some (f, i))
    (hcall : i.operation = .call) (hk : 0 < k) (hid : f.id ∈ (step^[k] m).frameIds) :
    ∃ before stack function args, m.step.control = .call function args ∧
      Frame.Grown { f with current := f.pc, pc := f.pc + 1 } before ∧
      m.step.stack = .frame before (.results i.operands.a i.operands.c) :: stack := by
  have hacting := acting_of_dispatching hi
  have hfollows := Effect.keeps_dispatch Running.steady_follows i ⟨m.world, f, m.stack⟩
  have hends : ∀ result, endingOf (Effect.dispatch i ⟨m.world, f, m.stack⟩) ≠ some result := by
    intro result hresult
    have hending := ending_of_acting hacting hresult
    exact hm.ending_ne hk hid hending (id_of_keeps hfollows)
  rw [step_of_acting hacting]
  cases hdispatch : Effect.dispatch i ⟨m.world, f, m.stack⟩ with
  | error failure t =>
    rw [hdispatch] at hends
    exact absurd rfl (hends (.error failure))
  | ok outcome t =>
    rw [hdispatch] at hends
    rcases Effect.ends_dispatch_call hcall outcome t hdispatch with
      ⟨results, rfl⟩ | ⟨hgrown, function, args, rfl⟩
    · exact absurd rfl (hends (.ok results))
    · exact ⟨t.frame, t.stack, function, args, rfl, hgrown, rfl⟩

/-- While the call goes on, the frame does not run. -/
theorem Within.not_run (hm : m.Anchored) (h : m.Within (.frame f next :: base))
    (hg : m.control = .run g) : g.id ≠ f.id := by
  obtain ⟨above, stack, hstack, hkept, -⟩ := h
  obtain ⟨waiting, rest, hwaiting, -, rfl⟩ := List.forall₂_cons_left_iff.1 hkept
  cases hwaiting with
  | @frame _ f' _ hf =>
    have hnodup := hm.nodup
    unfold frames at hnodup
    rw [hg, hstack] at hnodup
    have hmem : f'.id ∈ (Stack.frames (above ++ .frame f' next :: rest)).map (·.id) := by
      unfold Stack.frames
      rw [List.filterMap_append]
      simp
    intro heq
    have hnot := (List.nodup_cons.1 hnodup).1
    rw [← heq.trans hf.id_eq.symm] at hmem
    exact hnot hmem

/-- When the call is over, a frame that is in progress later takes the results. -/
theorem call_returns (hm : m.Anchored) (h : m.Over (.frame f next :: base)) (hk : 0 < k)
    (hid : f.id ∈ (step^[k] m).frameIds) :
    ∃ results waited rest t, m.control = .give results ∧ m.stack = .frame waited next :: rest ∧
      f.Kept waited ∧ accept next results ⟨m.world, waited, rest⟩ = .ok .next t ∧
      m.step.control = .run t.frame ∧ t.frame.id = f.id := by
  obtain ⟨hkept, hhanded⟩ := h
  obtain ⟨waiting, rest, hwaiting, -, hstack⟩ := List.forall₂_cons_left_iff.1 hkept
  obtain ⟨w, stack, control⟩ := m
  subst hstack
  cases hwaiting with
  | @frame _ waited _ hwaited =>
    cases control with
    | run g => exact absurd rfl hhanded
    | call function args => exact absurd rfl hhanded
    | fail failure => exact absurd hwaited.id_eq (hm.ending_ne hk hid rfl)
    | give results =>
      have hfollows :=
        Effect.keeps_accept Running.steady_follows.toMoving next results ⟨w, waited, rest⟩
      have hacting : acting? ⟨w, .frame waited next :: rest, .give results⟩ =
          some (accept next results ⟨w, waited, rest⟩) := rfl
      have hends := ends_accept next results ⟨w, waited, rest⟩
      have hsame := (id_of_keeps hfollows).trans hwaited.id_eq
      unfold Effect.after at hsame
      cases haccept : accept next results ⟨w, waited, rest⟩ with
      | error failure t =>
        rw [haccept] at hacting hsame
        exact absurd hsame (hm.ending_ne hk hid (ending_of_acting hacting rfl))
      | ok outcome t =>
        rw [haccept] at hacting hsame
        obtain rfl := hends outcome t haccept
        refine ⟨results, waited, rest, t, rfl, rfl, hwaited, haccept, ?_, hsame⟩
        rw [step_of_acting hacting]
        rfl

/-- When a frame that waits for a call which has just begun runs later, then the call is over at
some moment before that. -/
theorem over_of_runs {before : Frame} {stack : Stack} {function : Value} {args : List Value}
    (hm : m.Reached) (hcontrol : m.control = .call function args)
    (hstack : m.stack = .frame before next :: stack) (hg : (step^[k] m).control = .run g)
    (hid : g.id = before.id) :
    ∃ j d, k = j + d + 1 ∧ (step^[j] m).Over (.frame before next :: stack) ∧
      before.id ∈ (step^[d + 1] (step^[j] m)).frameIds := by
  -- the frame does not run while the call goes on
  rcases (within_of_call hcontrol).iterate hm.anchored k with hall | ⟨j, hj, hover, -⟩
  · have hwithin := hall k le_rfl
    rw [hstack] at hwithin
    exact absurd hid (hwithin.not_run (hm.iterate _).anchored hg)
  · rw [hstack] at hover
    have hne : j ≠ k := by
      rintro rfl
      refine hover.2 ?_
      unfold handed?
      rw [hg]
    obtain ⟨d, rfl⟩ := Nat.exists_eq_add_of_lt (lt_of_le_of_ne hj hne)
    refine ⟨j, d, rfl, hover, ?_⟩
    rw [← Function.iterate_add_apply, ← hid]
    refine mem_frameIds_of_run (Eq.trans ?_ hg)
    congr 2
    omega

/-- When a frame that is about to execute a call runs later, then the call is over at some moment
before that. -/
theorem call_over (hm : m.Reached) (hi : m.dispatching? = some (f, i))
    (hcall : i.operation = .call) (hg : (step^[k + 1] m).control = .run g) (hid : g.id = f.id) :
    ∃ before stack j d, k = j + d + 1 ∧
      Frame.Grown { f with current := f.pc, pc := f.pc + 1 } before ∧
      (step^[j + 1] m).Over (.frame before (.results i.operands.a i.operands.c) :: stack) ∧
      before.id ∈ (step^[d + 1] (step^[j + 1] m)).frameIds := by
  obtain ⟨before, stack, function, args, hcontrol, hbefore, hstack⟩ :=
    call_begins hm.anchored hi hcall k.succ_pos (hid ▸ mem_frameIds_of_run hg)
  have hsame : before.id = f.id := by rw [hbefore.frame]
  rw [Function.iterate_succ_apply] at hg
  obtain ⟨j, d, rfl, hover, hlater⟩ :=
    over_of_runs (hm.iterate 1) hcontrol hstack hg (hid.trans hsame.symm)
  exact ⟨before, stack, j, d, rfl, hbefore, hover, hlater⟩

/-- Whether a frame runs at a moment. -/
def runs (m : Machine) (id : FrameId) : Bool :=
  match m.control with
  | .run f => f.id = id
  | _ => false

theorem runs_iff {id : FrameId} : m.runs id = true ↔ ∃ f, m.control = .run f ∧ f.id = id := by
  unfold runs
  split
  · rename_i f hf
    simp [hf]
  · rename_i hnot
    exact ⟨fun h => (by cases h), fun ⟨f, hf, _⟩ => absurd hf (hnot f)⟩

end Machine

end ScriptMachine
