import Mathlib
import ScriptMachine.Proofs.Machine.Keeping

/-!
# How calls end

At every moment the calls of closures that are in progress are the frame that executes and those
that wait.  A step of a run lets a frame act, and the frame then goes on, makes a call, or ends with
results or a failure; a call that would be one too many ends before its first instruction.  Apart
from these endings no step takes a frame away.
-/

namespace ScriptMachine

/-- The frames that wait, the innermost first. -/
def Stack.frames (stack : Stack) : List Frame :=
  stack.filterMap fun
    | .frame f _ => some f
    | .native _ => none

@[simp] theorem Stack.frames_nil : Stack.frames [] = [] := rfl

@[simp] theorem Stack.frames_frame (f : Frame) (next : Continuation) (stack : Stack) :
    Stack.frames (.frame f next :: stack) = f :: stack.frames := rfl

@[simp] theorem Stack.frames_native (resume : Except Failure (List Value) → FunctionProgram)
    (stack : Stack) : Stack.frames (.native resume :: stack) = stack.frames := rfl

namespace Running

/-- The frames that are in progress, the innermost first. -/
def frames (s : Running) : List Frame := s.frame :: s.stack.frames

/-- The run after the frame has ended. -/
def endWith (s : Running) : Except Failure (List Value) → Machine
  | .ok values => .leave s.world s.frame s.stack values
  | .error failure => .abort s.world s.frame s.stack failure

end Running

namespace Machine

/-- The frames that are in progress, the innermost first. -/
def frames (m : Machine) : List Frame :=
  match m.control with
  | .run f => f :: m.stack.frames
  | _ => m.stack.frames

/-- The identities of the frames that are in progress. -/
def frameIds (m : Machine) : List FrameId := m.frames.map (·.id)

theorem mem_frames_of_run {m : Machine} {f : Frame} (h : m.control = .run f) :
    f ∈ m.frames := by
  unfold frames
  rw [h]
  exact List.mem_cons_self

theorem mem_frameIds_of_run {m : Machine} {f : Frame} (h : m.control = .run f) :
    f.id ∈ m.frameIds := List.mem_map_of_mem (mem_frames_of_run h)

/-- The results or the failure that a moment hands to the call that waits. -/
def handed? (m : Machine) : Option (Except Failure (List Value)) :=
  match m.control with
  | .give values => some (.ok values)
  | .fail failure => some (.error failure)
  | _ => none

/-- The calls that wait and go on waiting: all of them, but for one that something is handed to. -/
def waiting (m : Machine) : Stack :=
  match m.handed? with
  | some _ => m.stack.tail
  | none => m.stack

/-! ## What a frame does -/

/-- The frame that executes, and the instruction that it is about to run. -/
def dispatching? (m : Machine) : Option (Frame × Instruction) :=
  match m.control with
  | .run f => (nextInstruction? m.world f).map (f, ·)
  | _ => none

theorem dispatching_spec {m : Machine} {f : Frame} {i : Instruction}
    (h : m.dispatching? = some (f, i)) :
    m.control = .run f ∧ nextInstruction? m.world f = some i := by
  unfold dispatching? at h
  split at h
  · rename_i f' hf'
    obtain ⟨i', hi', heq⟩ := Option.map_eq_some_iff.1 h
    cases heq
    exact ⟨hf', hi'⟩
  · cases h

/-- What the frame that executes, or that a call comes back to, does in the next step, and the
state that it leaves. -/
def acting? (m : Machine) : Option (EStateM.Result Failure Running Outcome) :=
  match m with
  | ⟨w, stack, .run f⟩ =>
    match nextInstruction? w f with
    | some i => some (Effect.dispatch i ⟨w, f, stack⟩)
    | none => some (.ok (.leave []) ⟨w, f, stack⟩)
  | ⟨w, .frame f next :: stack, .give values⟩ => some (accept next values ⟨w, f, stack⟩)
  | ⟨w, .frame f _ :: stack, .fail failure⟩ => some (.error failure ⟨w, f, stack⟩)
  | _ => none

theorem step_of_acting {m : Machine} {r : EStateM.Result Failure Running Outcome}
    (h : m.acting? = some r) : m.step = ofOutcome r := by
  obtain ⟨w, stack, control⟩ := m
  cases control with
  | run f =>
    unfold acting? at h
    unfold step
    dsimp only at h ⊢
    cases hi : nextInstruction? w f with
    | some i =>
      rw [hi] at h
      cases h
      rfl
    | none =>
      rw [hi] at h
      cases h
      rfl
  | call function args => cases stack <;> cases h
  | give values =>
    cases stack with
    | nil => cases h
    | cons waiting stack =>
      cases waiting with
      | frame f next =>
        cases h
        rfl
      | native resume => cases h
  | fail failure =>
    cases stack with
    | nil => cases h
    | cons waiting stack =>
      cases waiting with
      | frame f next =>
        cases h
        rfl
      | native resume => cases h

/-- A frame that is about to run an instruction runs it. -/
theorem acting_of_dispatching {m : Machine} {f : Frame} {i : Instruction}
    (h : m.dispatching? = some (f, i)) :
    m.acting? = some (Effect.dispatch i ⟨m.world, f, m.stack⟩) := by
  obtain ⟨hf, hi⟩ := dispatching_spec h
  obtain ⟨w, stack, control⟩ := m
  cases hf
  unfold acting?
  dsimp only at hi ⊢
  rw [hi]

/-- What effects keep is kept by a frame that acts, if the instruction that it runs keeps it. -/
theorem keeps_acting_of {R : Running → Running → Prop} (hR : Effect.Moving R) {m : Machine}
    (hdispatch : ∀ f i, m.dispatching? = some (f, i) →
      R ⟨m.world, f, m.stack⟩ ((Effect.dispatch i).after ⟨m.world, f, m.stack⟩))
    {r : EStateM.Result Failure Running Outcome} (h : m.acting? = some r) :
    ∃ s : Running, s.world = m.world ∧ s.frames = m.frames ∧ s.stack = m.waiting ∧
      R s (Effect.stateOf r) := by
  obtain ⟨w, stack, control⟩ := m
  cases control with
  | run f =>
    refine ⟨⟨w, f, stack⟩, rfl, rfl, rfl, ?_⟩
    unfold acting? at h
    dsimp only at h
    cases hi : nextInstruction? w f with
    | some i =>
      rw [hi] at h
      cases h
      exact hdispatch f i (by simp [dispatching?, hi])
    | none =>
      rw [hi] at h
      cases h
      exact hR.refl _
  | call function args => cases stack <;> cases h
  | give values =>
    cases stack with
    | nil => cases h
    | cons waiting stack =>
      cases waiting with
      | frame f next =>
        cases h
        exact ⟨⟨w, f, stack⟩, rfl, rfl, rfl, Effect.keeps_accept hR next values ⟨w, f, stack⟩⟩
      | native resume => cases h
  | fail failure =>
    cases stack with
    | nil => cases h
    | cons waiting stack =>
      cases waiting with
      | frame f next =>
        cases h
        exact ⟨⟨w, f, stack⟩, rfl, rfl, rfl, hR.refl _⟩
      | native resume => cases h

/-- What effects keep is kept by a frame that acts. -/
theorem keeps_acting {R : Running → Running → Prop} (hR : Effect.Steady R) {m : Machine}
    {r : EStateM.Result Failure Running Outcome} (h : m.acting? = some r) :
    ∃ s : Running, s.world = m.world ∧ s.frames = m.frames ∧ s.stack = m.waiting ∧
      R s (Effect.stateOf r) :=
  keeps_acting_of hR.toMoving (fun _ i _ => Effect.keeps_dispatch hR i _) h

/-! ## Calls of closures -/

/-- The state of a run in which the call of a closure has got its frame. -/
def entered (w : World) (stack : Stack) (c : Closure) (vm : Vm) (args : List Value) : Running where
  world := { w.modifyVm c.vm fun vm => { vm with depth := vm.depth + 1 } with
    nextFrame := w.nextFrame + 1 }
  frame := Frame.enter ⟨w.nextFrame⟩ (vm.prototype c.prototype) c args
  stack := stack

theorem enter_of_alive {w : World} {stack : Stack} {c : Closure} {vm : Vm} {args : List Value}
    (hpresent : vm.isPresent = true) (halive : vm.alive = true) :
    enter w stack c vm args =
      if vm.settings.maxCallDepth < vm.depth + 1 then
        (entered w stack c vm args).endWith (.error (.fault .stackOverflow))
      else ⟨(entered w stack c vm args).world, stack, .run (entered w stack c vm args).frame⟩ := by
  unfold enter
  rw [hpresent, halive, if_neg (by simp), if_neg (by simp)]
  rfl

/-- A machine that is gone or closed gets no frame. -/
theorem enter_of_gone {w : World} {stack : Stack} {c : Closure} {vm : Vm} {args : List Value}
    (h : (vm.isPresent && vm.alive) = false) :
    enter w stack c vm args = ⟨w, stack, .give []⟩ ∨
      ∃ f, enter w stack c vm args = ⟨w, stack, .fail (.fault f)⟩ := by
  unfold enter
  rcases Bool.and_eq_false_iff.1 h with hpresent | halive
  · rw [hpresent, if_pos (by simp)]
    exact .inr ⟨_, rfl⟩
  · rw [halive]
    split
    · exact .inr ⟨_, rfl⟩
    · exact .inl rfl

/-- The frame that the next step makes for the call of a closure, and whether the call is one too
many. -/
def entering? (m : Machine) : Option (Running × Bool) :=
  match m.control with
  | .call (.function id) args =>
    match m.world.function? id with
    | some (.closure c) =>
      let vm := m.world.vms.getD c.vm.index .empty
      if vm.isPresent && vm.alive then
        some (entered m.world m.stack c vm args, vm.settings.maxCallDepth < vm.depth + 1)
      else none
    | _ => none
  | _ => none

theorem step_of_entering {m : Machine} {s : Running} {overflows : Bool}
    (h : m.entering? = some (s, overflows)) :
    m.step = if overflows then s.endWith (.error (.fault .stackOverflow))
      else ⟨s.world, s.stack, .run s.frame⟩ := by
  obtain ⟨w, stack, control⟩ := m
  unfold entering? at h
  cases control with
  | call function args =>
    cases function with
    | function id =>
      dsimp only at h
      cases hfunction : w.function? id with
      | none => rw [hfunction] at h; cases h
      | some body =>
        cases body with
        | native name run => rw [hfunction] at h; cases h
        | closure c =>
          rw [hfunction] at h
          dsimp only at h
          split at h
          · rename_i halive
            obtain ⟨hpresent, halive⟩ := Bool.and_eq_true_iff.1 halive
            cases h
            show call w stack (.function id) args = _
            unfold call
            dsimp only
            rw [hfunction]
            refine (enter_of_alive hpresent halive).trans ?_
            simp only [decide_eq_true_eq]
            rfl
          · cases h
    | _ => cases h
  | _ => cases h

theorem entering_spec {m : Machine} {s : Running} {overflows : Bool}
    (h : m.entering? = some (s, overflows)) :
    ∃ c vm args, s = entered m.world m.stack c vm args ∧ m.frames = m.stack.frames ∧
      m.waiting = m.stack := by
  obtain ⟨w, stack, control⟩ := m
  unfold entering? at h
  cases control with
  | call function args =>
    cases function with
    | function id =>
      dsimp only at h
      split at h
      · split at h
        · cases h
          exact ⟨_, _, _, rfl, rfl, rfl⟩
        · cases h
      · cases h
    | _ => cases h
  | _ => cases h

/-! ## Steps without a frame -/

theorem ofSettled_frames (stack : Stack) (r : World × Settled FunctionCall (List Value)) :
    (ofSettled stack r).frames = stack.frames := by
  obtain ⟨w, result | failure | ⟨target, resume⟩⟩ := r <;> rfl

theorem ofSettled_world (stack : Stack) (r : World × Settled FunctionCall (List Value)) :
    (ofSettled stack r).world = r.1 := by
  obtain ⟨w, result | failure | ⟨target, resume⟩⟩ := r <;> rfl

theorem ofSettled_stack (stack : Stack) (r : World × Settled FunctionCall (List Value)) :
    ∃ above, (ofSettled stack r).stack = above ++ stack := by
  obtain ⟨w, result | failure | ⟨target, resume⟩⟩ := r
  · exact ⟨[], rfl⟩
  · exact ⟨[], rfl⟩
  · exact ⟨[.native resume], rfl⟩

/-- The programs of the host that a step may run when no frame acts and none is made.  A call that
gets no frame, and a run that has ended, give results or fail at once. -/
inductive Resting (m : Machine) : FunctionProgram → Prop where
  /-- A function of the host is called. -/
  | begins {id : FunctionId} {name : Bytes} {run : List Value → FunctionProgram} {args : List Value}
    (control : m.control = .call (.function id) args)
    (function : m.world.function? id = some (.native name run)) : Resting m (run args)
  /-- A function of the host goes on. -/
  | resumes {resume : Except Failure (List Value) → FunctionProgram} {rest : Stack}
    {answer : Except Failure (List Value)} (stack : m.stack = .native resume :: rest)
    (handed : m.handed? = some answer) : Resting m (resume answer)
  /-- There are results. -/
  | gives (values : List Value) : Resting m (.done values)
  /-- There is no such function. -/
  | faults (f : Fault) : Resting m (.fail (.fault f))
  /-- The run has failed. -/
  | failed {failure : Failure} (control : m.control = .fail failure) : Resting m (.fail failure)

/-- When no frame acts and none is made, a program of the host runs. -/
theorem resting_spec {m : Machine} (hacting : m.acting? = none) (hentering : m.entering? = none) :
    ∃ p, m.Resting p ∧ m.step = ofSettled m.waiting (p.settle m.world) := by
  obtain ⟨w, stack, control⟩ := m
  cases control with
  | run f =>
    unfold acting? at hacting
    dsimp only at hacting
    split at hacting <;> cases hacting
  | call function args =>
    show ∃ p, Resting _ p ∧ call w stack function args = ofSettled stack (p.settle w)
    unfold call
    cases function with
    | function id =>
      unfold entering? at hentering
      dsimp only at hentering ⊢
      cases hfunction : w.function? id with
      | none => exact ⟨_, .gives [], rfl⟩
      | some body =>
        cases body with
        | native name run => exact ⟨_, .begins rfl hfunction, rfl⟩
        | closure c =>
          simp only [hfunction] at hentering
          split at hentering
          · cases hentering
          · rename_i hgone
            show ∃ p, Resting _ p ∧ enter w stack c (w.vms.getD c.vm.index .empty) args =
              ofSettled stack (p.settle w)
            rcases enter_of_gone (Bool.eq_false_iff.2 hgone) with hgives | ⟨fault, hfails⟩
            · exact ⟨_, .gives [], hgives⟩
            · exact ⟨_, .faults fault, hfails⟩
    | _ => exact ⟨_, .faults (.notCallable _), rfl⟩
  | give values =>
    cases stack with
    | nil => exact ⟨_, .gives values, rfl⟩
    | cons waiting stack =>
      cases waiting with
      | frame f next => cases hacting
      | native resume => exact ⟨_, .resumes rfl rfl, rfl⟩
  | fail failure =>
    cases stack with
    | nil => exact ⟨_, .failed rfl, rfl⟩
    | cons waiting stack =>
      cases waiting with
      | frame f next => cases hacting
      | native resume => exact ⟨_, .resumes rfl rfl, rfl⟩

theorem frames_waiting {m : Machine} (hacting : m.acting? = none) :
    m.waiting.frames = m.frames := by
  obtain ⟨w, stack, control⟩ := m
  cases control with
  | run f =>
    unfold acting? at hacting
    dsimp only at hacting
    split at hacting <;> cases hacting
  | call function args => rfl
  | give values | fail failure =>
    cases stack with
    | nil => rfl
    | cons waiting stack =>
      cases waiting with
      | frame f next => cases hacting
      | native resume => rfl

/-- When no frame acts and none is made, all that a step does to the world is what a program of the
host does, and the calls that wait go on waiting. -/
theorem step_of_resting {m : Machine} (hacting : m.acting? = none)
    (hentering : m.entering? = none) :
    ∃ p : FunctionProgram, m.step.world = (p.settle m.world).1 ∧ m.step.frames = m.frames ∧
      ∃ above, m.step.stack = above ++ m.waiting := by
  obtain ⟨p, -, hstep⟩ := resting_spec hacting hentering
  rw [hstep]
  refine ⟨p, ofSettled_world _ _, ?_, ofSettled_stack _ _⟩
  rw [ofSettled_frames, frames_waiting hacting]

/-! ## Endings -/

/-- How a frame ends by what it has done, if it does. -/
def endingOf : EStateM.Result Failure Running Outcome → Option (Except Failure (List Value))
  | .ok (.leave values) _ => some (.ok values)
  | .error failure _ => some (.error failure)
  | _ => none

/-- The frame that the next step ends, in its last state, and how it ends. -/
def ending? (m : Machine) : Option (Running × Except Failure (List Value)) :=
  match m.acting? with
  | some r => (endingOf r).map (Effect.stateOf r, ·)
  | none =>
    match m.entering? with
    | some (s, true) => some (s, .error (.fault .stackOverflow))
    | _ => none

theorem ending_of_acting {m : Machine} {r : EStateM.Result Failure Running Outcome}
    {result : Except Failure (List Value)} (h : m.acting? = some r)
    (hends : endingOf r = some result) : m.ending? = some (Effect.stateOf r, result) := by
  unfold ending?
  rw [h]
  simp only [hends, Option.map_some]

/-- A frame that acts goes on or waits, and else it ends. -/
theorem ofOutcome_cases (r : EStateM.Result Failure Running Outcome) :
    (endingOf r = none ∧ (ofOutcome r).world = (Effect.stateOf r).world ∧
        (ofOutcome r).frames = (Effect.stateOf r).frames ∧
          ∃ above, (ofOutcome r).stack = above ++ (Effect.stateOf r).stack) ∨
      ∃ result, endingOf r = some result ∧ ofOutcome r = (Effect.stateOf r).endWith result := by
  cases r with
  | ok outcome s =>
    cases outcome with
    | next => exact .inl ⟨rfl, rfl, rfl, [], rfl⟩
    | call function args next => exact .inl ⟨rfl, rfl, rfl, [.frame s.frame next], rfl⟩
    | leave values => exact .inr ⟨.ok values, rfl, rfl⟩
  | error failure s => exact .inr ⟨.error failure, rfl, rfl⟩

/-- The ways in which a step can go, `R` being what effects keep. -/
inductive Move (R : Running → Running → Prop) (m : Machine) : Prop where
  /-- A frame acts, and is in progress afterwards. -/
  | goesOn (s t : Running) (world : s.world = m.world) (frames : s.frames = m.frames)
      (keeps : R s t) (ending : m.ending? = none) (world' : m.step.world = t.world)
      (frames' : m.step.frames = t.frames) (waiting : s.stack = m.waiting)
      (waiting' : ∃ above, m.step.stack = above ++ t.stack)
  /-- A frame acts, and ends. -/
  | ends (s t : Running) (result : Except Failure (List Value)) (world : s.world = m.world)
      (frames : s.frames = m.frames) (keeps : R s t) (ending : m.ending? = some (t, result))
      (step : m.step = t.endWith result) (waiting : s.stack = m.waiting)
  /-- A frame is made. -/
  | enters (c : Closure) (vm : Vm) (args : List Value) (frames : m.frames = m.stack.frames)
      (ending : m.ending? = none)
      (world' : m.step.world = (entered m.world m.stack c vm args).world)
      (frames' : m.step.frames = (entered m.world m.stack c vm args).frames)
      (waiting : m.waiting = m.stack) (waiting' : m.step.stack = m.stack)
  /-- A frame is made that is one too many, and ends. -/
  | overflows (c : Closure) (vm : Vm) (args : List Value) (frames : m.frames = m.stack.frames)
      (ending : m.ending? =
        some (entered m.world m.stack c vm args, .error (.fault .stackOverflow)))
      (step : m.step = (entered m.world m.stack c vm args).endWith (.error (.fault .stackOverflow)))
      (waiting : m.waiting = m.stack)
  /-- The frames wait, and at most a program of the host runs. -/
  | rests (p : FunctionProgram) (ending : m.ending? = none)
      (world' : m.step.world = (p.settle m.world).1) (frames' : m.step.frames = m.frames)
      (waiting' : ∃ above, m.step.stack = above ++ m.waiting)

/-- Every step goes in one of these ways, if the instruction that it runs keeps what effects keep. -/
theorem move_of {R : Running → Running → Prop} (hR : Effect.Moving R) {m : Machine}
    (hdispatch : ∀ f i, m.dispatching? = some (f, i) →
      R ⟨m.world, f, m.stack⟩ ((Effect.dispatch i).after ⟨m.world, f, m.stack⟩)) : Move R m := by
  cases hacting : m.acting? with
  | some r =>
    obtain ⟨s, hworld, hframes, hwaiting, hkeeps⟩ := keeps_acting_of hR hdispatch hacting
    rcases ofOutcome_cases r with ⟨hgoes, hworld', hframes', hstack⟩ | ⟨result, hends, hstep⟩
    · refine .goesOn s (Effect.stateOf r) hworld hframes hkeeps ?_ ?_ ?_ hwaiting ?_
      · simp only [ending?, hacting, hgoes, Option.map_none]
      · rw [step_of_acting hacting, hworld']
      · rw [step_of_acting hacting, hframes']
      · rw [step_of_acting hacting]
        exact hstack
    · refine .ends s (Effect.stateOf r) result hworld hframes hkeeps ?_ ?_ hwaiting
      · simp only [ending?, hacting, hends, Option.map_some]
      · rw [step_of_acting hacting, hstep]
  | none =>
    cases hentering : m.entering? with
    | some entering =>
      obtain ⟨s, overflows⟩ := entering
      obtain ⟨c, vm, args, rfl, hframes, hwaiting⟩ := entering_spec hentering
      have hstep := step_of_entering hentering
      cases overflows with
      | true =>
        refine .overflows c vm args hframes ?_ ?_ hwaiting
        · simp only [ending?, hacting, hentering]
        · rw [hstep, if_pos rfl]
      | false =>
        rw [if_neg (by simp)] at hstep
        refine .enters c vm args hframes ?_ ?_ ?_ hwaiting ?_
        · simp only [ending?, hacting, hentering]
        · rw [hstep]
        · rw [hstep]
          rfl
        · rw [hstep]
          rfl
    | none =>
      obtain ⟨p, hworld, hframes, hstack⟩ := step_of_resting hacting hentering
      refine .rests p ?_ hworld hframes hstack
      simp only [ending?, hacting, hentering]

theorem move {R : Running → Running → Prop} (hR : Effect.Steady R) (m : Machine) : Move R m :=
  move_of hR.toMoving fun _ i _ => Effect.keeps_dispatch hR i _

theorem Move.imp {R S : Running → Running → Prop} {m : Machine} (h : Move R m)
    (hRS : ∀ s t, R s t → S s t) : Move S m := by
  cases h with
  | goesOn s t hworld hframes h hending hworld' hframes' hwaiting hwaiting' =>
    exact .goesOn s t hworld hframes (hRS s t h) hending hworld' hframes' hwaiting hwaiting'
  | ends s t result hworld hframes h hending hstep hwaiting =>
    exact .ends s t result hworld hframes (hRS s t h) hending hstep hwaiting
  | enters c vm args hframes hending hworld' hframes' hwaiting hwaiting' =>
    exact .enters c vm args hframes hending hworld' hframes' hwaiting hwaiting'
  | overflows c vm args hframes hending hstep hwaiting =>
    exact .overflows c vm args hframes hending hstep hwaiting
  | rests p hending hworld' hframes' hwaiting' => exact .rests p hending hworld' hframes' hwaiting'

theorem step_of_ending {m : Machine} {s : Running} {result : Except Failure (List Value)}
    (h : m.ending? = some (s, result)) : m.step = s.endWith result := by
  unfold ending? at h
  cases hacting : m.acting? with
  | some r =>
    rw [hacting] at h
    obtain ⟨result', hends, heq⟩ := Option.map_eq_some_iff.1 h
    cases heq
    rcases ofOutcome_cases r with ⟨hgoes, -⟩ | ⟨result'', hends', hstep⟩
    · rw [hgoes] at hends
      cases hends
    · rw [hends'] at hends
      cases hends
      rw [step_of_acting hacting, hstep]
  | none =>
    rw [hacting] at h
    cases hentering : m.entering? with
    | none =>
      rw [hentering] at h
      cases h
    | some entering =>
      obtain ⟨s', _ | _⟩ := entering <;> rw [hentering] at h <;> cases h
      exact (step_of_entering hentering).trans (if_pos rfl)

end Machine

/-! ## Worlds -/

/-- A relation between worlds is kept by all that a step does to the world but for its
instruction. -/
structure World.Routine (R : World → World → Prop) : Prop extends World.Hosted R where
  /-- A frame ends. -/
  ended : ∀ (w : World) (f : Frame), R w (Machine.endFrame w f)
  /-- A frame is made. -/
  entered : ∀ (w : World) (stack : Stack) (c : Closure) (vm : Vm) (args : List Value),
    R w (Machine.entered w stack c vm args).world

namespace Machine

theorem endWith_world {R : World → World → Prop} (hR : World.Routine R) (s : Running)
    (result : Except Failure (List Value)) : R s.world (s.endWith result).world := by
  cases result with
  | ok values => exact hR.ended _ _
  | error failure => exact hR.trans (handle_keeps hR.toHosted _ _ _) (hR.ended _ _)

/-- What instructions keep of the world, and all else, is kept by a step. -/
theorem Move.world {R : World → World → Prop} (hR : World.Routine R) {m : Machine}
    (h : Move (fun s t => R s.world t.world) m) : R m.world m.step.world := by
  cases h with
  | goesOn s t hworld _ h _ hworld' => exact hworld' ▸ hworld ▸ h
  | ends s t result hworld _ h _ hstep =>
    exact hstep ▸ hR.trans (hworld ▸ h) (endWith_world hR t result)
  | enters c vm args _ _ hworld' => exact hworld' ▸ hR.entered _ _ _ _ _
  | overflows c vm args _ _ hstep =>
    exact hstep ▸ hR.trans (hR.entered _ _ _ _ _) (endWith_world hR _ _)
  | rests p _ hworld' => exact hworld' ▸ p.settle_keeps hR.toHosted m.world

/-- It is kept until a frame ends. -/
theorem Move.world_of_ending {R : World → World → Prop} (hR : World.Routine R) {m : Machine}
    (h : Move (fun s t => R s.world t.world) m) {s : Running}
    {result : Except Failure (List Value)} (hends : m.ending? = some (s, result)) :
    R m.world s.world := by
  cases h with
  | ends s' t result' hworld _ h hending =>
    rw [hending] at hends
    cases hends
    exact hworld ▸ h
  | overflows c vm args _ hending =>
    rw [hending] at hends
    cases hends
    exact hR.entered _ _ _ _ _
  | goesOn _ _ _ _ _ hending | enters _ _ _ _ hending | rests _ hending =>
    rw [hending] at hends
    cases hends

end Machine

end ScriptMachine
