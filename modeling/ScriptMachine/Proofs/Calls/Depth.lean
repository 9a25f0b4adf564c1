import ScriptMachine.Proofs.Calls.Waiting
import ScriptMachine.Proofs.Machine.Reports

/-!
# The depth of calls

A machine counts its calls in progress.  At every moment that a run comes to, the count is exact: it
is the number of frames of the machine that are in progress.  So it is the same after a call as
before it, however the call ends, and the limit on the depth refuses a call exactly when the machine
has as many calls in progress as it allows.
-/

namespace ScriptMachine

/-! ## Counts of calls -/

/-- The calls of a machine among some frames. -/
def callCount (frames : List Frame) (id : VmId) : Nat := (frames.map (·.vm)).count id

theorem callCount_cons (f : Frame) (frames : List Frame) (id : VmId) :
    callCount (f :: frames) id = callCount frames id + if f.vm = id then 1 else 0 := by
  simp [callCount, List.count_cons]

/-- Every machine counts its calls among some frames. -/
def World.Counts (w : World) (frames : List Frame) : Prop :=
  ∀ id vm, w.vm? id = some vm → vm.depth = callCount frames id

/-- The same machines have the same depths. -/
def World.SameDepths (w w' : World) : Prop :=
  ∀ id, (w'.vm? id).map Vm.depth = (w.vm? id).map Vm.depth

namespace World

variable {w w' : World} {frames frames' : List Frame}

theorem sameDepths_modifyVm (w : World) (id : VmId) {f : Vm → Vm}
    (hf : ∀ vm, (f vm).depth = vm.depth) : w.SameDepths (w.modifyVm id f) := by
  intro other
  rw [vm?_modifyVm]
  split
  · rw [Option.map_map]
    exact congrArg (Option.map · _) (funext hf)
  · rfl

theorem SameDepths.trans {u : World} (h : u.SameDepths w) (h' : w.SameDepths w') :
    u.SameDepths w' := fun id => (h' id).trans (h id)

theorem Counts.congr (h : w.Counts frames) (hdepths : w.SameDepths w')
    (hframes : frames'.map (·.vm) = frames.map (·.vm)) : w'.Counts frames' := by
  intro id vm' hvm'
  have hdepth := hdepths id
  rw [hvm'] at hdepth
  obtain ⟨vm, hvm, heq⟩ := Option.map_eq_some_iff.1 hdepth.symm
  unfold callCount
  rw [← heq, hframes]
  exact h id vm hvm

/-- A call begins. -/
theorem Counts.entered (h : w.Counts frames) (f : Frame) :
    (w.modifyVm f.vm fun vm => { vm with depth := vm.depth + 1 }).Counts (f :: frames) := by
  intro id vm' hvm'
  rw [vm?_modifyVm] at hvm'
  rw [callCount_cons]
  split at hvm'
  · rename_i heq
    obtain ⟨vm, hvm, rfl⟩ := Option.map_eq_some_iff.1 hvm'
    rw [if_pos heq, ← h id vm hvm]
  · rename_i hne
    rw [if_neg hne]
    exact h id vm' hvm'

/-- A call ends. -/
theorem Counts.ended {f : Frame} (h : w.Counts (f :: frames)) :
    (w.modifyVm f.vm fun vm => { vm with depth := vm.depth - 1 }).Counts frames := by
  intro id vm' hvm'
  rw [vm?_modifyVm] at hvm'
  split at hvm'
  · rename_i heq
    obtain ⟨vm, hvm, rfl⟩ := Option.map_eq_some_iff.1 hvm'
    have hdepth := h id vm hvm
    rw [callCount_cons, if_pos heq] at hdepth
    dsimp only
    omega
  · rename_i hne
    have hdepth := h id vm' hvm'
    rwa [callCount_cons, if_neg hne] at hdepth

/-- Programs of the host count no calls. -/
theorem hosted_sameDepths : Hosted SameDepths where
  refl _ _ := rfl
  trans h h' := h.trans h'
  heap _ _ _ := rfl
  write _ _ _ := rfl
  close w id := w.sameDepths_modifyVm id fun _ => rfl
  release w id := w.sameDepths_modifyVm id fun _ => rfl
  setBreakpoint {w w' id _ _ _} h := by
    rcases setBreakpoint_cases h with rfl | ⟨m, rfl⟩
    · exact fun _ => rfl
    · exact w.sameDepths_modifyVm id fun _ => rfl
  record _ _ _ := rfl
  countUp _ _ _ _ := rfl

end World

/-! ## Steps -/

/-- Between two states, no call has begun or ended. -/
structure Running.SameCalls (s t : Running) : Prop where
  /-- The depths are the same. -/
  depths : s.world.SameDepths t.world
  /-- The frames are of the same machines. -/
  machines : t.frames.map (·.vm) = s.frames.map (·.vm)

/-- No basic effect counts a call. -/
theorem Running.steady_sameCalls : Effect.Steady Running.SameCalls where
  refl s := ⟨fun _ => rfl, rfl⟩
  trans h h' := ⟨h.depths.trans h'.depths, h'.machines.trans h.machines⟩
  fault s f := ⟨fun _ => rfl, rfl⟩
  frame s f hf _ := ⟨fun _ => rfl, by simp [frames, hf.vm]⟩
  moved s pc := ⟨fun _ => rfl, rfl⟩
  setIterator s slot bridge := ⟨fun _ => rfl, rfl⟩
  dropIterator s slot := ⟨fun _ => rfl, rfl⟩
  heap s heap := ⟨fun _ => rfl, rfl⟩
  perform s p _ := ⟨p.perform_keeps World.hosted_sameDepths s.world, rfl⟩
  confusion s := ⟨fun _ => rfl, rfl⟩
  countHit s := ⟨s.world.sameDepths_modifyVm _ fun _ => rfl, rfl⟩
  trace s line := ⟨s.world.sameDepths_modifyVm _ fun _ => rfl, rfl⟩
  writeCell id value s := by
    unfold Effect.after Effect.writeCell
    split
    · exact ⟨fun _ => rfl, rfl⟩
    · split
      · exact ⟨fun _ => rfl, rfl⟩
      · refine ⟨fun _ => rfl, congrArg (List.cons _) ?_⟩
        exact map_frames_putRegister (fun _ _ _ => rfl) _ _ _ _
  closedCell value s := ⟨fun _ => rfl, rfl⟩
  captureRegister slot s := ⟨fun _ => rfl, rfl⟩
  closeFrom slot s := ⟨fun _ => rfl, rfl⟩
  createClosure index upvalues s := ⟨fun _ => rfl, rfl⟩

namespace Machine

variable {m n : Machine} {s : Running} {id : VmId} {k : Nat}

/-- Every machine counts its calls in progress. -/
def Counts (m : Machine) : Prop := m.world.Counts m.frames

theorem counts_endWith (h : s.world.Counts s.frames) (result : Except Failure (List Value)) :
    (s.endWith result).Counts := by
  unfold Counts
  rw [s.endWith_frames]
  cases result with
  | ok values => exact h.ended
  | error failure =>
    exact (h.congr (handle_keeps World.hosted_sameDepths s.world s.frame failure) rfl).ended

/-- A step keeps the counts exact. -/
theorem Counts.step (h : m.Counts) : m.step.Counts := by
  cases move Running.steady_sameCalls m with
  | goesOn s t hworld hframes hsame _ hworld' hframes' =>
    unfold Counts at h ⊢
    rw [← hworld, ← hframes] at h
    rw [hworld', hframes']
    exact h.congr hsame.depths hsame.machines
  | ends s t result hworld hframes hsame _ hstep =>
    unfold Counts at h
    rw [← hworld, ← hframes] at h
    rw [hstep]
    exact counts_endWith (h.congr hsame.depths hsame.machines) result
  | enters c vm args hframes _ hworld' hframes' =>
    unfold Counts at h ⊢
    rw [hframes] at h
    rw [hworld', hframes']
    exact h.entered (entered m.world m.stack c vm args).frame
  | overflows c vm args hframes _ hstep =>
    unfold Counts at h
    rw [hframes] at h
    rw [hstep]
    exact counts_endWith (h.entered (entered m.world m.stack c vm args).frame) _
  | rests p _ hworld' hframes' =>
    unfold Counts at h ⊢
    rw [hworld', hframes']
    exact h.congr (p.settle_keeps World.hosted_sameDepths m.world) rfl

theorem counts_createVm {w : World} (h : w.Counts []) (module : Module)
    (environment : Option TableId) (settings : Settings) :
    (w.createVm module environment settings).2.Counts [] := by
  intro id vm hvm
  replace hvm : (w.vms.push { module, environment, settings })[id.index]? = some vm := hvm
  rw [Array.getElem?_push] at hvm
  split at hvm
  · cases hvm
    rfl
  · exact h id vm hvm

/-- What the host does between calls keeps the counts exact: a new machine has no calls. -/
theorem counts_acts {w w' : World} (h : w.Counts []) (hacts : w.Acts w') : w'.Counts [] := by
  cases hacts with
  | performs p => exact h.congr (p.settle_keeps World.hosted_sameDepths w) rfl
  | loads hload =>
    obtain ⟨m, heap, -, heq⟩ := World.createVm_of_loadBytes hload
    obtain rfl : _ = w' := congrArg Prod.snd heq
    have hstored : World.Counts { w with heap } [] := h
    exact counts_createVm hstored _ _ _
  | creates module environment settings => exact counts_createVm h _ _ _
  | makes body => exact h
  | stores heap => exact h
  | resets id => exact h.congr (w.sameDepths_modifyVm id fun _ => rfl) rfl

theorem Reached.counts (h : m.Reached) : m.Counts := by
  induction h with
  | refl =>
    intro id vm hvm
    cases hvm
  | @tail m n _ next ih =>
    cases next with
    | step => exact ih.step
    | acts ended hacts =>
      have hframes := frames_of_outcome ended
      unfold Counts at ih ⊢
      rw [hframes] at ih
      exact hframes ▸ counts_acts ih hacts
    | calls ended function args =>
      unfold Counts at ih
      rw [frames_of_outcome ended] at ih
      exact ih

/-! ## Calls -/

/-- After a number of steps, and not before, the call that a run is about to begin hands on its
results or its failure to the calls that have been waiting for it. -/
structure Ends (m : Machine) (k : Nat) (result : Except Failure (List Value)) : Prop where
  /-- As many calls wait as before. -/
  stack : (step^[k] m).stack.length = m.stack.length
  /-- The results or the failure are handed on. -/
  handed : (step^[k] m).handed? = some result
  /-- It is the first time. -/
  first : ∀ j < k, (step^[j] m).stack.length = m.stack.length → (step^[j] m).handed? = none

/-- When a call ends, the calls that have been waiting for it are the same but for registers of open
cells. -/
theorem Ends.kept {result : Except Failure (List Value)} (hm : m.Anchored)
    {function : Value} {args : List Value} (hcall : m.control = .call function args)
    (h : m.Ends k result) : m.stack.Kept (step^[k] m).stack := by
  rcases (within_of_call hcall).iterate hm k with hall | ⟨j, hj, ⟨hkept, hhanded⟩, -⟩
  · obtain ⟨above, stack, hstack, hkept, hnone⟩ := hall k le_rfl
    have hlength := h.stack
    rw [hstack, List.length_append, ← hkept.length_eq] at hlength
    have hnot := hnone (List.length_eq_zero_iff.1 (by omega))
    rw [h.handed] at hnot
    cases hnot
  · rcases Nat.lt_or_eq_of_le hj with hlt | rfl
    · exact absurd (h.first j hlt hkept.length_eq.symm) hhanded
    · exact hkept

/-- A call that ends leaves all depths as they were. -/
theorem Ends.depth {result : Except Failure (List Value)} (hm : m.Reached) {function : Value}
    {args : List Value} (hcall : m.control = .call function args) (h : m.Ends k result) {vm : Vm}
    (hvm : m.world.vm? id = some vm) :
    ∃ vm', (step^[k] m).world.vm? id = some vm' ∧ vm'.depth = vm.depth := by
  obtain ⟨vm', hvm', -⟩ := (iterate_evolves m k).machine hvm
  have hbefore : m.frames = m.stack.frames := by
    unfold frames
    rw [hcall]
  have hafter : (step^[k] m).frames = (step^[k] m).stack.frames := by
    have hhanded := h.handed
    unfold handed? at hhanded
    unfold frames
    split at hhanded
    · rename_i hgive
      rw [hgive]
    · rename_i hfail
      rw [hfail]
    · cases hhanded
  refine ⟨vm', hvm', ?_⟩
  calc vm'.depth = callCount (step^[k] m).frames id := (hm.iterate k).counts id vm' hvm'
    _ = callCount m.frames id := by
      unfold callCount
      rw [hafter, hbefore, (h.kept hm.anchored hcall).map_frames Frame.Kept.vm]
    _ = vm.depth := (hm.counts id vm hvm).symm

/-! ## The limit -/

end Machine

end ScriptMachine
