import Mathlib
import ScriptMachine.Machine.Load
import ScriptMachine.Proofs.Machine.Endings
import ScriptMachine.Proofs.Machine.Hosts

/-!
# What a run does to the world

A run changes a machine in few ways: it counts, it closes or releases it, it sets breakpoints.  It
makes functions and never changes one.  So one world comes out of another one by *evolving*,
whatever instructions and programs of the host run in between.
-/

namespace ScriptMachine

/-! ## Machines and worlds that evolve -/

/-- What can happen to a machine. -/
inductive Vm.Change (vm : Vm) : Vm → Prop where
  /-- Its traced instructions are counted. -/
  | traced (n : Nat) : Change vm { vm with traced := n }
  /-- Its calls in progress are counted. -/
  | depth (n : Nat) : Change vm { vm with depth := n }
  /-- The host closes it. -/
  | closed : Change vm { vm with alive := vm.alive && !vm.held }
  /-- The host gives it up. -/
  | released : Change vm { vm with held := false }
  /-- A breakpoint is set or cleared. -/
  | breakpoint {index slot : Nat} {enabled : Bool} {m : Module}
    (h : vm.module.setBreakpoint index slot enabled = .ok m) : Change vm { vm with module := m }
  /-- A hit is counted. -/
  | hit (index slot : Nat) : Change vm { vm with module := vm.module.countHit index slot }
  /-- The hits are set to zero. -/
  | reset : Change vm { vm with module := vm.module.resetCoverage }

/-- One machine has come out of another one by changes. -/
abbrev Vm.Evolves : Vm → Vm → Prop := Relation.ReflTransGen Vm.Change

/-- One world has come out of another one: its machines have changed, and its functions are still
there. -/
structure World.Evolves (w w' : World) : Prop where
  /-- Every machine has come out of one. -/
  machine : ∀ {id vm}, w.vm? id = some vm → ∃ vm', w'.vm? id = some vm' ∧ vm.Evolves vm'
  /-- No function is lost or changed. -/
  function : ∀ {id body}, w.function? id = some body → w'.function? id = some body

/-- The settings of a machine never change. -/
theorem Vm.Evolves.settings {vm vm' : Vm} (h : vm.Evolves vm') : vm'.settings = vm.settings := by
  induction h with
  | refl => rfl
  | tail _ change ih =>
    rw [← ih]
    cases change <;> rfl

namespace World

variable {u v w w' : World}

/-- Only machines and functions matter. -/
theorem Evolves.of_same (hvms : w'.vms = w.vms) (hfunctions : w'.functions = w.functions) :
    w.Evolves w' where
  machine {id vm} h := ⟨vm, by rw [← h, vm?, vm?, hvms], .refl⟩
  function {id body} h := by rw [← h, function?, function?, hfunctions]

@[refl] theorem Evolves.refl (w : World) : w.Evolves w := .of_same rfl rfl

theorem Evolves.trans (h : u.Evolves v) (h' : v.Evolves w) : u.Evolves w where
  machine hvm := by
    obtain ⟨vm', hvm', hchanged⟩ := h.machine hvm
    obtain ⟨vm'', hvm'', hchanged'⟩ := h'.machine hvm'
    exact ⟨vm'', hvm'', hchanged.trans hchanged'⟩
  function hbody := h'.function (h.function hbody)

theorem vm?_modifyVm (w : World) (id other : VmId) (f : Vm → Vm) :
    (w.modifyVm id f).vm? other = if id = other then (w.vm? other).map f else w.vm? other := by
  obtain ⟨index⟩ := id
  obtain ⟨index'⟩ := other
  simp only [vm?, modifyVm, Array.getElem?_modify, VmId.mk.injEq]

theorem evolves_modifyVm (w : World) (id : VmId) {f : Vm → Vm}
    (hf : ∀ vm, w.vm? id = some vm → vm.Change (f vm)) : w.Evolves (w.modifyVm id f) where
  machine {other vm} h := by
    rw [vm?_modifyVm, h]
    split
    · rename_i heq
      subst heq
      exact ⟨f vm, rfl, .single (hf vm h)⟩
    · exact ⟨vm, rfl, .refl⟩
  function h := h

theorem evolves_createFunction (w : World) (body : FunctionBody) :
    w.Evolves (w.createFunction body).2 where
  machine {_ vm} h := ⟨vm, h, .refl⟩
  function h := by
    obtain ⟨hlt, heq⟩ := Array.getElem?_eq_some_iff.1 h
    have hpush : ∀ i < w.functions.size, (w.functions.push body)[i]? = w.functions[i]? :=
      fun i hi => by rw [Array.getElem?_push, if_neg hi.ne]
    exact (hpush _ hlt).trans h

theorem evolves_createVm (w : World) (module : Module) (environment : Option TableId)
    (settings : Settings) : w.Evolves (w.createVm module environment settings).2 := by
  have hpush : w.Evolves { w with vms := w.vms.push { module, environment, settings } } := by
    refine ⟨fun {_ vm} h => ⟨vm, ?_, .refl⟩, id⟩
    obtain ⟨hlt, -⟩ := Array.getElem?_eq_some_iff.1 h
    show (w.vms.push _)[_]? = some vm
    rw [Array.getElem?_push, if_neg hlt.ne]
    exact h
  exact hpush.trans (evolves_createFunction _ _)

theorem evolves_setBreakpoint {id : VmId} {index slot : Nat} {enabled : Bool}
    (h : w.setBreakpoint id index slot enabled = .ok w') : w.Evolves w' := by
  unfold setBreakpoint at h
  split at h
  · rename_i vm hvm
    split at h
    · cases hmodule : vm.module.setBreakpoint index slot enabled with
      | error missing =>
        rw [hmodule] at h
        cases h
      | ok m =>
        rw [hmodule] at h
        cases h
        refine w.evolves_modifyVm id fun vm' hvm' => ?_
        rw [hvm] at hvm'
        cases hvm'
        exact .breakpoint hmodule
    · cases h
      rfl
  · cases h
    rfl

end World

/-! ## The host -/

theorem World.hosted_evolves : World.Hosted World.Evolves where
  refl := .refl
  trans h h' := h.trans h'
  heap _ _ := .of_same rfl rfl
  write _ _ := .of_same rfl rfl
  close w id := w.evolves_modifyVm id fun _ _ => .closed
  release w id := w.evolves_modifyVm id fun _ _ => .released
  setBreakpoint h := evolves_setBreakpoint h
  record _ _ := .of_same rfl rfl
  countUp _ _ _ := .of_same rfl rfl

/-- Whatever a program of the host does, the world evolves. -/
theorem Program.settle_evolves {κ α : Type} (p : Program κ α) (w : World) :
    w.Evolves (p.settle w).1 := p.settle_keeps World.hosted_evolves w

theorem Program.perform_evolves {α : Type} (p : HookProgram α) (w : World) :
    w.Evolves (p.perform w).1 := p.perform_keeps World.hosted_evolves w

/-! ## Steps -/

/-- Every basic effect lets the world evolve. -/
theorem Effect.steady_evolves : Steady fun s t => s.world.Evolves t.world where
  refl s := .refl _
  trans h h' := h.trans h'
  fault s f := .refl _
  frame s f hf _ := .refl _
  moved s pc := .refl _
  setIterator s slot bridge := .refl _
  dropIterator s slot := .refl _
  heap s heap := .of_same rfl rfl
  perform s p _ := p.perform_evolves s.world
  countHit s := s.world.evolves_modifyVm _ fun _ _ => .hit _ _
  confusion s := .refl _
  trace s line := by
    have hcounted := s.world.evolves_modifyVm s.frame.vm fun vm _ => .traced (vm.traced + 1)
    exact hcounted.trans (.of_same rfl rfl)
  writeCell id value s := by
    unfold after writeCell
    split
    · exact .of_same rfl rfl
    · split <;> exact .refl _
  closedCell value s := .of_same rfl rfl
  captureRegister slot s := .of_same rfl rfl
  closeFrom slot s := .of_same rfl rfl
  createClosure index upvalues s := s.world.evolves_createFunction _

/-! ## What the host has made -/

namespace World

variable {u v w w' : World}

/-- From one world to the other the host makes nothing new. -/
structure SameHost (w w' : World) : Prop where
  /-- There are as many machines. -/
  size : w'.vms.size = w.vms.size
  /-- Their settings are the same. -/
  settings : w.SameSettings w'
  /-- What functions there are now were there before, or are closures. -/
  functions : ∀ {id body}, w'.function? id = some body →
    w.function? id = some body ∨ ∃ c, body = .closure c

theorem SameHost.of_same (hvms : w'.vms = w.vms) (hfunctions : w'.functions = w.functions) :
    w.SameHost w' where
  size := congrArg Array.size hvms
  settings index := by rw [hvms]
  functions h := .inl (by rw [← h, function?, function?, hfunctions])

theorem SameHost.refl (w : World) : w.SameHost w := .of_same rfl rfl

theorem SameHost.trans (h : u.SameHost v) (h' : v.SameHost w) : u.SameHost w where
  size := h'.size.trans h.size
  settings index := (h'.settings index).trans (h.settings index)
  functions hw := by
    rcases h'.functions hw with hv | hclosure
    · exact h.functions hv
    · exact .inr hclosure

theorem sameHost_modifyVm (w : World) (id : VmId) {f : Vm → Vm}
    (hf : ∀ vm, (f vm).settings = vm.settings) : w.SameHost (w.modifyVm id f) where
  size := Array.size_modify
  settings := w.sameSettings_modifyVm id hf
  functions h := .inl h

theorem sameHost_createFunction (w : World) (c : Closure) :
    w.SameHost (w.createFunction (.closure c)).2 where
  size := rfl
  settings index := rfl
  functions {id body} h := by
    have hpush : (w.functions.push (.closure c))[id.index]? = some body := h
    rw [Array.getElem?_push] at hpush
    split at hpush
    · cases hpush
      exact .inr ⟨c, rfl⟩
    · exact .inl hpush

/-- No step makes anything for the host. -/
theorem routine_sameHost : Routine SameHost where
  refl := .refl
  trans h h' := h.trans h'
  heap _ _ := .of_same rfl rfl
  write _ _ := .of_same rfl rfl
  close w id := w.sameHost_modifyVm id fun _ => rfl
  release w id := w.sameHost_modifyVm id fun _ => rfl
  setBreakpoint {w w' id _ _ _} h := by
    rcases setBreakpoint_cases h with rfl | ⟨m, rfl⟩
    · exact .refl _
    · exact w.sameHost_modifyVm id fun _ => rfl
  record _ _ := .of_same rfl rfl
  countUp _ _ _ := .of_same rfl rfl
  ended w f := (w.sameHost_modifyVm f.vm (f := fun vm => { vm with depth := vm.depth - 1 })
    fun _ => rfl).trans (.of_same rfl rfl)
  entered w _ c _ _ := (w.sameHost_modifyVm c.vm (f := fun vm => { vm with depth := vm.depth + 1 })
    fun _ => rfl).trans (.of_same rfl rfl)

end World

namespace Running

/-- From one state to the other the host makes nothing new, and no function of the host has come to
wait. -/
structure SameHost (s t : Running) : Prop where
  /-- Nothing new is made. -/
  world : s.world.SameHost t.world
  /-- What waits has waited. -/
  stack : ∀ {resume}, .native resume ∈ t.stack → .native resume ∈ s.stack

theorem SameHost.of_world {s t : Running} (h : s.world.SameHost t.world)
    (hstack : t.stack = s.stack) : s.SameHost t := ⟨h, fun hresume => hstack ▸ hresume⟩

theorem mem_putRegister {stack : Stack} {frame : FrameId} {slot : Nat} {value : Value}
    {resume : Except Failure (List Value) → FunctionProgram}
    (h : .native resume ∈ stack.putRegister frame slot value) : .native resume ∈ stack := by
  obtain ⟨waiting, hwaiting, heq⟩ := List.mem_map.1 h
  cases waiting with
  | frame f next =>
    dsimp only at heq
    split at heq <;> cases heq
  | native resume' =>
    cases heq
    exact hwaiting

/-- No basic effect makes anything for the host. -/
theorem steady_sameHost : Effect.Steady SameHost where
  refl s := .of_world (.refl _) rfl
  trans h h' := ⟨h.world.trans h'.world, fun hresume => h.stack (h'.stack hresume)⟩
  fault s f := .of_world (.refl _) rfl
  frame s f _ _ := .of_world (.refl _) rfl
  moved s pc := .of_world (.refl _) rfl
  setIterator s slot bridge := .of_world (.refl _) rfl
  dropIterator s slot := .of_world (.refl _) rfl
  heap s heap := .of_world (.of_same rfl rfl) rfl
  perform s p _ := .of_world (p.perform_keeps World.routine_sameHost.toHosted s.world) rfl
  countHit s := .of_world (s.world.sameHost_modifyVm s.frame.vm fun _ => rfl) rfl
  confusion s := .of_world (.refl _) rfl
  trace s line := by
    have htraced := s.world.sameHost_modifyVm s.frame.vm
      (f := fun vm => { vm with traced := vm.traced + 1 }) fun _ => rfl
    exact .of_world (htraced.trans (.of_same rfl rfl)) rfl
  writeCell cell value s := by
    unfold Effect.after Effect.writeCell
    split
    · exact .of_world (.of_same rfl rfl) rfl
    · split
      · exact .of_world (.refl _) rfl
      · exact ⟨.refl _, mem_putRegister⟩
  closedCell value s := .of_world (.of_same rfl rfl) rfl
  captureRegister slot s := .of_world (.of_same rfl rfl) rfl
  closeFrom slot s := .of_world (.of_same rfl rfl) rfl
  createClosure index upvalues s := .of_world (s.world.sameHost_createFunction _) rfl

end Running

namespace Machine

variable {m : Machine} {resume : Except Failure (List Value) → FunctionProgram}

theorem endWith_stack (s : Running) (result : Except Failure (List Value)) :
    (s.endWith result).stack = s.stack := by
  cases result <;> rfl

/-- What waits after a frame has acted waited before, or is the frame. -/
theorem mem_ofOutcome {r : EStateM.Result Failure Running Outcome}
    (h : .native resume ∈ (ofOutcome r).stack) : .native resume ∈ (Effect.stateOf r).stack := by
  rcases r with ⟨_ | values | ⟨function, args, next⟩, s⟩ | ⟨failure, s⟩
  · exact h
  · exact h
  · exact (List.mem_cons.1 h).resolve_left fun heq => by cases heq
  · exact h

theorem mem_waiting {waiting : Suspended} (h : waiting ∈ m.waiting) : waiting ∈ m.stack := by
  unfold Machine.waiting at h
  split at h
  · exact List.mem_of_mem_tail h
  · exact h

/-- A function of the host that waits has waited before, or a program of the host has come to a
call. -/
theorem native_of_step (h : .native resume ∈ m.step.stack) :
    .native resume ∈ m.stack ∨
      ∃ p target, m.Resting p ∧ (p.settle m.world).2 = .call target resume := by
  cases hacting : m.acting? with
  | some r =>
    obtain ⟨s, -, -, hstack, hkeeps⟩ := keeps_acting Running.steady_sameHost hacting
    rw [step_of_acting hacting] at h
    exact .inl (mem_waiting (hstack ▸ hkeeps.stack (mem_ofOutcome h)))
  | none =>
    cases hentering : m.entering? with
    | some entering =>
      obtain ⟨s, overflows⟩ := entering
      obtain ⟨c, vm, args, rfl, -, -⟩ := entering_spec hentering
      rw [step_of_entering hentering] at h
      cases overflows with
      | true =>
        rw [if_pos rfl, endWith_stack] at h
        exact .inl h
      | false => exact .inl h
    | none =>
      obtain ⟨p, hp, hstep⟩ := resting_spec hacting hentering
      rw [hstep] at h
      rcases hsettled : p.settle m.world with ⟨w, result | failure | ⟨target, resume'⟩⟩
      · rw [hsettled] at h
        exact .inl (mem_waiting h)
      · rw [hsettled] at h
        exact .inl (mem_waiting h)
      · rw [hsettled] at h
        rcases List.mem_cons.1 h with heq | hstack
        · cases heq
          exact .inr ⟨p, target, hp, congrArg Prod.snd hsettled⟩
        · exact .inl (mem_waiting hstack)

theorem endFrame_evolves (w : World) (f : Frame) : w.Evolves (endFrame w f) := by
  have hcounted := w.evolves_modifyVm f.vm fun vm _ => .depth (vm.depth - 1)
  exact hcounted.trans (.of_same rfl rfl)

theorem entered_evolves (w : World) (stack : Stack) (c : Closure) (vm : Vm) (args : List Value) :
    w.Evolves (entered w stack c vm args).world := by
  have hcounted := w.evolves_modifyVm c.vm fun vm _ => .depth (vm.depth + 1)
  exact hcounted.trans (.of_same rfl rfl)

theorem routine_evolves : World.Routine World.Evolves where
  toHosted := World.hosted_evolves
  ended := endFrame_evolves
  entered := entered_evolves

/-- In every step of a run the world evolves. -/
theorem step_evolves (m : Machine) : m.world.Evolves m.step.world :=
  (move Effect.steady_evolves m).world routine_evolves

theorem iterate_evolves (m : Machine) (k : Nat) : m.world.Evolves (step^[k] m).world := by
  induction k with
  | zero => rfl
  | succ k ih =>
    rw [Function.iterate_succ_apply']
    exact ih.trans (step_evolves _)

end Machine

end ScriptMachine
