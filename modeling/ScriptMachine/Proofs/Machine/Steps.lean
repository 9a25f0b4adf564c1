import ScriptMachine.Machine.Step
import ScriptMachine.Proofs.Machine.Looking

/-!
# Runs on worlds with more breakpoints

An instruction runs in two parts: what comes before its operation, where breakpoints are passed,
and the operation.  Both parts come out the same on a patch and on what it patches, unless the
operation looks for what a breakpoint hides, and so does a step of a run.  By induction on their
steps, runs that never look come out the same.
-/

namespace ScriptMachine

/-- The operation of an instruction that runs once a breakpoint has been passed. -/
def Instruction.operation (i : Instruction) : Opcode :=
  if i.opcode = .breakpoint then i.underlying else i.opcode

theorem Instruction.PatchOf.operation {allowed : Prop} {i j : Instruction}
    (h : i.PatchOf allowed j) : i.operation = j.operation := by
  unfold Instruction.operation
  rw [h.underlying]
  rcases h.opcode with heq | ⟨-, hbreakpoint, hown⟩
  · rw [heq]
  · rw [hbreakpoint, hown]
    simp

namespace Effect

variable {id : VmId}

/-! ## Before the operation -/

/-- What comes before the operation of an instruction: the results with which a breakpoint ends the
frame, if it does. -/
def prelude (i : Instruction) : Effect (Option (List Value)) := do
  modifyFrame fun f => { f with current := f.pc, pc := f.pc + 1 }
  trace i
  stepHook i.opcode
  if i.opcode = .breakpoint then passBreakpoint else return none

/-- The operation of an instruction, unless a breakpoint has ended the frame. -/
def body (i : Instruction) : Option (List Value) → Effect Outcome
  | some values => pure (.leave values)
  | none => execute i.operation i

theorem dispatch_eq (i : Instruction) : dispatch i = prelude i >>= body i := by
  unfold dispatch prelude
  simp only [bind_assoc]
  by_cases hbreakpoint : i.opcode = .breakpoint
  · simp only [hbreakpoint, if_true]
    refine bind_congr fun _ => bind_congr fun _ => bind_congr fun _ => bind_congr fun values => ?_
    cases values with
    | some values => rfl
    | none => simp [body, Instruction.operation, hbreakpoint]
  · simp [hbreakpoint, body, Instruction.operation]

section Prelude

variable {s t : Running}

/-- The instructions of two frames that run next differ by a breakpoint that may be there. -/
abbrev Differ (id : VmId) (s : Running) (i j : Instruction) : Prop :=
  i.PatchOf (s.frame.vm.index = id.index ∧ s.vm.settings.hooks.Transparent) j

theorem stepHook_transparent (hooks : s.vm.settings.hooks.Transparent) (opcode : Opcode) :
    stepHook opcode s = .ok () s := by
  unfold stepHook
  simp only [settings_bind]
  cases hhook : s.vm.settings.hooks.step with
  | none => rfl
  | some hook =>
    show perform (hook (contextOf s.frame opcode)) s = .ok () s
    unfold perform
    rw [hooks.step hook hhook]

theorem passBreakpoint_transparent (hooks : s.vm.settings.hooks.Transparent) :
    passBreakpoint s = .ok none s := by
  unfold passBreakpoint
  simp only [settings_bind]
  cases hhook : s.vm.settings.hooks.breakpoint with
  | none => rfl
  | some hook =>
    show perform (hook (contextOf s.frame .breakpoint)) s = .ok none s
    unfold perform
    rw [hooks.breakpoint hook hhook]

theorem blind_passBreakpoint : Blind id passBreakpoint := by
  refine blind_settings.bind fun settings => ?_
  split
  · exact (blind_context _).bind fun _ => blind_perform _
  · exact blind_pure _

theorem agree_trace (i j : Instruction) : Agree id Eq (trace i) (trace j) := by
  refine Agree.vm_bind fun v u allowed hv => ?_
  refine agree_get.bind fun s t hst => ?_
  rw [hst.frame, hv.settings, hv.traced]
  split
  · intro s' t' hst'
    have hmachine := hst'.world.modifyVm t.frame.vm
      (f := fun vm => { vm with traced := vm.traced + 1 })
      (g := fun vm => { vm with traced := vm.traced + 1 })
      fun a b _ _ hab => { hab with traced := by rw [hab.traced] }
    exact .ok rfl ⟨{ hmachine with }, hst'.frame, hst'.stack⟩
  · exact blind_pure _

/-- Tracing leaves the settings as they are. -/
theorem trace_settings {i : Instruction} {u : Unit} {s' : Running} (h : trace i s = .ok u s') :
    s'.vm.settings = s.vm.settings := by
  unfold trace at h
  simp only [vm_bind, get_bind] at h
  split at h
  · cases h
    show ((s.world.vms.modify s.frame.vm.index _).getD s.frame.vm.index .empty).settings = _
    unfold Running.vm
    rw [Array.getD_eq_getD_getElem?, Array.getElem?_modify, if_pos rfl,
      Array.getD_eq_getD_getElem?]
    cases s.world.vms[s.frame.vm.index]? <;> rfl
  · cases h
    rfl

/-- Transparent hooks let every operation pass. -/
theorem hooks_pass (hooks : s.vm.settings.hooks.Transparent) (opcode : Opcode) :
    (do stepHook opcode
        if opcode = .breakpoint then passBreakpoint else return none : Effect _) s = .ok none s := by
  show EStateM.bind (stepHook opcode) _ s = _
  unfold EStateM.bind
  rw [stepHook_transparent hooks]
  dsimp only
  split
  · exact passBreakpoint_transparent hooks
  · rfl

theorem same_prelude {i j : Instruction} (h : s.PatchOf id t) (hij : Differ id s i j) :
    Same id Eq (prelude i s) (prelude j t) := by
  unfold prelude
  simp only [modifyFrame_bind, ← h.frame]
  have hmoved : Running.PatchOf id
      { s with frame := { s.frame with current := s.frame.pc, pc := s.frame.pc + 1 } }
      { t with frame := { s.frame with current := s.frame.pc, pc := s.frame.pc + 1 } } :=
    ⟨h.world, rfl, h.stack⟩
  refine (agree_trace i j _ _ hmoved).bind fun _ _ s' t' hs' _ h' => ?_
  rcases hij.opcode with heq | ⟨⟨-, hooks⟩, -, -⟩
  · rw [heq]
    refine ((blind_stepHook _).bind fun _ => ?_) _ _ h'
    exact .ite blind_passBreakpoint (blind_pure _)
  · -- the hooks see another operation here, and do nothing
    have hs : s'.vm.settings.hooks.Transparent := trace_settings hs' ▸ hooks
    have ht : t'.vm.settings.hooks.Transparent := h'.vm.settings ▸ hs
    rw [hooks_pass hs, hooks_pass ht]
    exact .ok rfl h'

/-- What an instruction does is the same with a breakpoint, once that has been passed. -/
theorem execute_patch {i j : Instruction} {allowed : Prop} (h : i.PatchOf allowed j) :
    execute i.operation i = execute j.operation j := by
  rw [← h.operation, h.same, execute_withOpcode]

theorem same_body {i j : Instruction} (h : s.PatchOf id t) {allowed : Prop}
    (hij : i.PatchOf allowed j) (values : Option (List Value))
    (hlook : values = none → looks id i.operation i s = false) :
    Same id Eq (body i values s) (body j values t) := by
  cases values with
  | some values => exact .ok rfl h
  | none =>
    show Same id Eq (execute i.operation i s) (execute j.operation j t)
    rw [← execute_patch hij]
    exact same_execute _ i h (hlook rfl)

/-- An instruction comes out the same when its operation does not look at what is hidden. -/
theorem same_dispatch {i j : Instruction} (h : s.PatchOf id t) (hij : Differ id s i j)
    (hlook : ∀ s', prelude i s = .ok none s' → looks id i.operation i s' = false) :
    Same id Eq (dispatch i s) (dispatch j t) := by
  rw [dispatch_eq, dispatch_eq]
  refine (same_prelude h hij).bind fun values values' s' t' hs' hvalues h' => ?_
  cases hvalues
  exact same_body h' hij values fun hnone => hlook s' (hnone ▸ hs')

end Prelude

end Effect

/-! ## Failures that leave a frame -/

section Failures

variable {id : VmId} {w u : World}

theorem locate_patch {allowed : Prop} {p q : Prototype} (h : p.PatchOf allowed q) (f : Frame)
    (message : Bytes) : f.locate p message = f.locate q message := by
  unfold Frame.locate Frame.operation
  rw [h.header, h.underlyingAt?]

theorem reportOf_patch {allowed : Prop} {p q : Prototype} (h : p.PatchOf allowed q)
    (settings : Settings) (f : Frame) (payload : Value) :
    reportOf settings f p payload = reportOf settings f q payload := by
  unfold reportOf
  simp only [locate_patch h]

theorem raise_patch {allowed : Prop} {v v' : Vm} (h : w.PatchOf id u) (hv : v.PatchOf allowed v')
    (f : Frame) (payload : Value) :
    (raise w v f payload).1.PatchOf id (raise u v' f payload).1 ∧
      (raise w v f payload).2 = (raise u v' f payload).2 := by
  have hp := hv.prototype f.prototype
  unfold raise
  simp only [reportOf_patch hp, hv.settings, Frame.operation, hp.underlyingAt?]
  rcases reportOf v'.settings f (v'.prototype f.prototype) payload with ⟨message, error⟩
  cases v'.settings.hooks.panic with
  | none => exact ⟨h, rfl⟩
  | some hook =>
    dsimp only
    generalize Effect.contextOf f _ = context
    obtain ⟨hworld, hresult⟩ := h.perform (hook message error context)
    rcases hw : (hook message error context).perform w with ⟨w', r⟩
    rcases hu : (hook message error context).perform u with ⟨u', r'⟩
    rw [hw, hu] at hworld hresult
    cases hresult
    rcases r with failure | ⟨⟩ <;> exact ⟨hworld, rfl⟩

theorem handle_patch (h : w.PatchOf id u) (f : Frame) (failure : Failure) :
    (handle w f failure).1.PatchOf id (handle u f failure).1 ∧
      (handle w f failure).2 = (handle u f failure).2 := by
  unfold handle
  rcases rel_cases (h.vm? f.vm) with ⟨hw, hu⟩ | ⟨v, v', hw, hu, hvv⟩ <;> rw [hw, hu]
  · exact ⟨h, rfl⟩
  · have hraise : ∀ payload : Value,
        (if v.settings.errorHandling then raise w v f payload else (w, failure)).1.PatchOf id
            (if v'.settings.errorHandling then raise u v' f payload else (u, failure)).1 ∧
          (if v.settings.errorHandling then raise w v f payload else (w, failure)).2 =
            (if v'.settings.errorHandling then raise u v' f payload else (u, failure)).2 := by
      intro payload
      rw [hvv.settings]
      by_cases herrors : v'.settings.errorHandling = true
      · simp only [herrors, if_true]
        exact raise_patch h hvv f payload
      · simp only [herrors]
        exact ⟨h, rfl⟩
    cases failure with
    | fault fault => exact hraise _
    | script payload reported =>
      cases reported with
      | false => exact hraise payload
      | true => exact ⟨h, rfl⟩
    | confusion | missingSlot | foreign => exact ⟨h, rfl⟩

end Failures

/-! ## Steps -/

namespace Machine

/-- A run is another one, with more breakpoints in a machine. -/
structure PatchOf (id : VmId) (m n : Machine) : Prop where
  /-- The world is the same but for breakpoints. -/
  world : m.world.PatchOf id n.world
  /-- The calls that wait are the same. -/
  stack : m.stack = n.stack
  /-- What comes next is the same. -/
  control : m.control = n.control

section Steps

variable {id : VmId} {w u : World}

theorem endFrame_patch (h : w.PatchOf id u) (f : Frame) :
    (endFrame w f).PatchOf id (endFrame u f) := by
  have hdepth := h.modifyVm f.vm (f := fun vm => { vm with depth := vm.depth - 1 })
    (g := fun vm => { vm with depth := vm.depth - 1 })
    fun v v' _ _ hv => { hv with depth := by rw [hv.depth] }
  refine { hdepth with cells := ?_ }
  show (f.toScope.closeFrom w.cells 0).2 = (f.toScope.closeFrom u.cells 0).2
  rw [h.cells]

theorem leave_patch (h : w.PatchOf id u) (f : Frame) (stack : Stack) (values : List Value) :
    PatchOf id (leave w f stack values) (leave u f stack values) :=
  ⟨endFrame_patch h f, rfl, rfl⟩

theorem abort_patch (h : w.PatchOf id u) (f : Frame) (stack : Stack) (failure : Failure) :
    PatchOf id (abort w f stack failure) (abort u f stack failure) := by
  obtain ⟨hworld, hfailure⟩ := handle_patch h f failure
  exact ⟨endFrame_patch hworld f, rfl, congrArg Control.fail hfailure⟩

theorem ofSettled_patch (stack : Stack) {r r' : World × Settled FunctionCall (List Value)}
    (hworld : r.1.PatchOf id r'.1) (hresult : r.2 = r'.2) :
    PatchOf id (ofSettled stack r) (ofSettled stack r') := by
  rcases r with ⟨w, r⟩
  rcases r' with ⟨u, r'⟩
  cases hresult
  cases r with
  | done values => exact ⟨hworld, rfl, rfl⟩
  | fail failure => exact ⟨hworld, rfl, rfl⟩
  | call target resume => exact ⟨hworld, rfl, rfl⟩

theorem enter_patch {allowed : Prop} {v v' : Vm} (h : w.PatchOf id u) (hv : v.PatchOf allowed v')
    (stack : Stack) (c : Closure) (args : List Value) :
    PatchOf id (enter w stack c v args) (enter u stack c v' args) := by
  have hheader := (hv.prototype c.prototype).header
  have hframe : Frame.enter ⟨w.nextFrame⟩ (v.prototype c.prototype) c args =
      Frame.enter ⟨u.nextFrame⟩ (v'.prototype c.prototype) c args := by
    unfold Frame.enter
    rw [hheader, h.nextFrame]
  have hentered : World.PatchOf id
      { w.modifyVm c.vm fun vm => { vm with depth := vm.depth + 1 } with
        nextFrame := u.nextFrame + 1 }
      { u.modifyVm c.vm fun vm => { vm with depth := vm.depth + 1 } with
        nextFrame := u.nextFrame + 1 } := by
    have hdepth := h.modifyVm c.vm (f := fun vm => { vm with depth := vm.depth + 1 })
      (g := fun vm => { vm with depth := vm.depth + 1 })
      fun a b _ _ hab => { hab with depth := by rw [hab.depth] }
    exact { hdepth with nextFrame := rfl }
  unfold enter Vm.isPresent
  rw [hv.held, hv.depth, hv.alive, hv.settings, hheader, hframe, h.nextFrame]
  split
  · exact ⟨h, rfl, rfl⟩
  · split
    · exact ⟨h, rfl, rfl⟩
    · dsimp only
      split
      · exact abort_patch hentered _ _ _
      · exact ⟨hentered, rfl, rfl⟩

theorem call_patch (h : w.PatchOf id u) (stack : Stack) (function : Value) (args : List Value) :
    PatchOf id (call w stack function args) (call u stack function args) := by
  unfold call
  split
  · rw [h.function?]
    split
    · rename_i run _
      obtain ⟨hworld, hresult⟩ := h.settle (run args)
      exact ofSettled_patch stack hworld hresult
    · exact enter_patch h (h.vm _) stack _ args
    · exact ⟨h, rfl, rfl⟩
  · exact ⟨h, rfl, rfl⟩

theorem ofOutcome_patch {r r' : EStateM.Result Failure Running Outcome}
    (h : Effect.Same id Eq r r') : PatchOf id (ofOutcome r) (ofOutcome r') := by
  cases h with
  | error state =>
    rename_i failure s t
    show PatchOf id (abort s.world s.frame s.stack failure) (abort t.world t.frame t.stack failure)
    rw [state.frame, state.stack]
    exact abort_patch state.world _ _ _
  | ok value state =>
    rename_i outcome outcome' s t
    cases value
    cases outcome with
    | next => exact ⟨state.world, state.stack, congrArg Control.run state.frame⟩
    | leave values =>
      show PatchOf id (leave s.world s.frame s.stack values) (leave t.world t.frame t.stack values)
      rw [state.frame, state.stack]
      exact leave_patch state.world _ _ _
    | call function args next =>
      refine ⟨state.world, ?_, rfl⟩
      show Suspended.frame s.frame next :: s.stack = Suspended.frame t.frame next :: t.stack
      rw [state.frame, state.stack]

theorem blind_accept (next : Continuation) (values : List Value) :
    Effect.Blind id (accept next values) := by
  cases next with
  | results base wanted =>
    exact (Effect.blind_storeResults _ _ _).bind fun _ => Effect.blind_pure _
  | iteration base arity distance =>
    exact (Effect.blind_storeRound _ _ _ _).bind fun _ => Effect.blind_pure _

/-- The instructions that run next differ by a breakpoint that may be there. -/
theorem nextInstruction?_patch (h : w.PatchOf id u) (f : Frame) (stack : Stack) :
    Option.Rel (Effect.Differ id ⟨w, f, stack⟩) (nextInstruction? w f) (nextInstruction? u f) := by
  unfold nextInstruction?
  rcases rel_cases (h.vm? f.vm) with ⟨hw, hu⟩ | ⟨v, v', hw, hu, hvv⟩ <;> rw [hw, hu]
  · exact .none
  · have hvm : (⟨w, f, stack⟩ : Running).vm = v := by
      unfold World.vm? at hw
      unfold Running.vm
      rw [Array.getD_eq_getD_getElem?, hw]
      rfl
    simp only [hvv.alive]
    split
    · unfold Effect.Differ
      rw [hvm]
      exact (hvv.prototype f.prototype).slot f.pc
    · exact .none

end Steps

/-! ## Runs -/

/-- The instruction whose operation a run is about to execute, and the state on which it does so. -/
def executing? (m : Machine) : Option (Instruction × Running) :=
  match m.control with
  | .run f =>
    match nextInstruction? m.world f with
    | some i =>
      match Effect.prelude i ⟨m.world, f, m.stack⟩ with
      | .ok none s => some (i, s)
      | _ => none
    | none => none
  | _ => none

/-- The operation that comes next looks for another one where a breakpoint of a machine hides it. -/
def looks (id : VmId) (m : Machine) : Bool :=
  m.executing?.any fun (i, s) => Effect.looks id i.operation i s

section Runs

variable {id : VmId} {m n : Machine}

theorem step_run (w : World) (stack : Stack) (f : Frame) :
    step ⟨w, stack, .run f⟩ =
      match nextInstruction? w f with
      | some i => ofOutcome (Effect.dispatch i ⟨w, f, stack⟩)
      | none => leave w f stack [] := rfl

/-- A step that does not look keeps the runs the same. -/
theorem step_patch (h : m.PatchOf id n) (hlook : m.looks id = false) :
    m.step.PatchOf id n.step := by
  rcases m with ⟨w, stack, control⟩
  rcases n with ⟨u, stack', control'⟩
  obtain ⟨hworld, rfl, rfl⟩ := h
  dsimp only at hworld
  cases control with
  | run f =>
    show PatchOf id (step ⟨w, stack, .run f⟩) (step ⟨u, stack, .run f⟩)
    rw [step_run, step_run]
    rcases rel_cases (nextInstruction?_patch hworld f stack) with ⟨hi, hj⟩ | ⟨i, j, hi, hj, hij⟩ <;>
      rw [hi, hj]
    · exact leave_patch hworld f stack []
    · refine ofOutcome_patch (Effect.same_dispatch ⟨hworld, rfl, rfl⟩ hij fun s' hs' => ?_)
      simpa [looks, executing?, hi, hs'] using hlook
  | call function args => exact call_patch hworld stack function args
  | give values =>
    cases stack with
    | nil => exact ⟨hworld, rfl, rfl⟩
    | cons waiting stack =>
      cases waiting with
      | frame f next => exact ofOutcome_patch (blind_accept next values _ _ ⟨hworld, rfl, rfl⟩)
      | native resume =>
        obtain ⟨hsettled, hresult⟩ := hworld.settle (resume (.ok values))
        exact ofSettled_patch stack hsettled hresult
  | fail failure =>
    cases stack with
    | nil => exact ⟨hworld, rfl, rfl⟩
    | cons waiting stack =>
      cases waiting with
      | frame f next => exact abort_patch hworld f stack failure
      | native resume =>
        obtain ⟨hsettled, hresult⟩ := hworld.settle (resume (.error failure))
        exact ofSettled_patch stack hsettled hresult

/-- Runs that have not looked are the same after any count of steps. -/
theorem iterate_patch (k : Nat) (h : m.PatchOf id n)
    (hlook : ∀ j < k, (step^[j] m).looks id = false) :
    (step^[k] m).PatchOf id (step^[k] n) := by
  induction k with
  | zero => exact h
  | succ k ih =>
    rw [Function.iterate_succ_apply', Function.iterate_succ_apply']
    exact step_patch (ih fun j hj => hlook j (by omega)) (hlook k (by omega))

theorem outcome?_patch (h : m.PatchOf id n) : m.outcome? = n.outcome? := by
  unfold outcome?
  rw [h.stack, h.control]

/-- Runs that never look end in the same way, or both go on. -/
theorem run_patch (fuel : Nat) (h : m.PatchOf id n)
    (hlook : ∀ k < fuel, (step^[k] m).looks id = false) :
    Option.Rel (fun r r' => r.1.PatchOf id r'.1 ∧ r.2 = r'.2) (m.run fuel) (n.run fuel) := by
  -- on the steps that are left: the rest of a run that never looks never looks either
  induction fuel generalizing m n with
  | zero =>
    unfold run
    rw [outcome?_patch h]
    cases n.outcome? with
    | none => exact .none
    | some outcome => exact .some ⟨h.world, rfl⟩
  | succ fuel ih =>
    unfold run
    rw [outcome?_patch h]
    cases n.outcome? with
    | none =>
      refine ih (step_patch h (hlook 0 (by omega))) fun k hk => ?_
      rw [← Function.iterate_succ_apply]
      exact hlook (k + 1) (by omega)
    | some outcome => exact .some ⟨h.world, rfl⟩

end Runs

end Machine

end ScriptMachine
