import ScriptMachine.Proofs.Machine.Steps
import ScriptMachine.Proofs.Machine.Worlds

/-!
# How instructions end

What holds whenever an effect ends well is put together from what holds of its parts.  So one sees
that the hooks before an operation leave the frame alone but for its position, and which
instructions can end their frame without a failure: a return, and one whose breakpoint ends the
frame early.
-/

namespace ScriptMachine

/-- The state in which the hooks of the next instruction are called. -/
def Running.advanced (s : Running) : Running :=
  { s with frame := { s.frame with current := s.frame.pc, pc := s.frame.pc + 1 } }

/-- The run that goes on with the frame of a state. -/
def Running.machine (s : Running) : Machine := ⟨s.world, s.stack, .run s.frame⟩

/-- The instruction that runs next is one of a machine that is there, in the code of the frame's
prototype. -/
theorem Machine.code_of_next {s : Running} {i : Instruction}
    (h : nextInstruction? s.world s.frame = some i) :
    (∃ vm, s.world.vm? s.frame.vm = some vm) ∧
      s.prototype.code[s.frame.pc]?.map Slot.asInstruction = some i := by
  unfold nextInstruction? at h
  cases hvm : s.world.vm? s.frame.vm with
  | none =>
    rw [hvm] at h
    cases h
  | some vm =>
    simp only [hvm] at h
    split at h
    · refine ⟨⟨vm, rfl⟩, ?_⟩
      unfold Running.prototype Running.vm
      unfold World.vm? at hvm
      rwa [Array.getD_eq_getD_getElem?, hvm, Option.getD_some]
    · cases h

namespace Effect

variable {α β : Type} {s t : Running}

/-! ## Ending well -/

/-- When an effect ends well, its result and its state are as `Q` says. -/
def Ends (x : Effect α) (s : Running) (Q : α → Running → Prop) : Prop :=
  ∀ a t, x s = .ok a t → Q a t

theorem Ends.mono {x : Effect α} {P Q : α → Running → Prop} (h : x.Ends s P)
    (hPQ : ∀ a t, P a t → Q a t) : x.Ends s Q := fun a t hx => hPQ a t (h a t hx)

theorem Ends.bind {x : Effect α} {f : α → Effect β} {P : α → Running → Prop}
    {Q : β → Running → Prop} (hx : x.Ends s P) (hf : ∀ a t, P a t → (f a).Ends t Q) :
    (x >>= f).Ends s Q := by
  intro b u h
  obtain ⟨a, t, hxs, hfs⟩ := ok_of_bind h
  exact hf a t (hx a t hxs) b u hfs

/-- When the last part ends as it should wherever it begins, the parts before it do not matter. -/
theorem Ends.last {x : Effect α} {f : α → Effect β} {Q : β → Running → Prop}
    (hf : ∀ a t, (f a).Ends t Q) : (x >>= f).Ends s Q := by
  have hx : x.Ends s fun _ _ => True := fun _ _ _ => trivial
  exact hx.bind fun a t _ => hf a t

theorem Ends.ite {c : Prop} [Decidable c] {x y : Effect α} {Q : α → Running → Prop}
    (hx : c → x.Ends s Q) (hy : ¬ c → y.Ends s Q) : (if c then x else y).Ends s Q := by
  split
  · exact hx ‹c›
  · exact hy ‹¬ c›

theorem ends_pure {a : α} {Q : α → Running → Prop} (h : Q a s) : (pure a : Effect α).Ends s Q := by
  intro b t hb
  cases hb
  exact h

theorem ends_throw {failure : Failure} {Q : α → Running → Prop} :
    (throw failure : Effect α).Ends s Q := by
  intro b t hb
  cases hb

theorem ends_fault {f : Fault} {Q : α → Running → Prop} : (fault f : Effect α).Ends s Q :=
  ends_throw

/-- What an effect keeps is kept in particular when it ends well. -/
theorem Upholds.ends {R : Running → Running → Prop} {x : Effect α} (h : Keeps R x) (s : Running) :
    x.Ends s fun _ t => R s t := by
  intro a t hx
  have hs := h s
  unfold after at hs
  rwa [hx] at hs

theorem ensure_eq (size : Nat) (s : Running) : ensure size s =
    match s.frame.ensure? size s.vm.settings.maxRegisters with
    | some frame => .ok () { s with frame }
    | none => .error (.fault .stackOverflow) s := rfl

/-! ## Hooks -/

/-- Between two states only the host has acted. -/
structure Aside (s t : Running) : Prop where
  /-- The frame is as it was. -/
  frame : t.frame = s.frame
  /-- So are those that wait. -/
  stack : t.stack = s.stack
  /-- The world has evolved. -/
  evolves : s.world.Evolves t.world

theorem Aside.refl (s : Running) : Aside s s := ⟨rfl, rfl, .refl _⟩

theorem Aside.trans {u : Running} (h : Aside s t) (h' : Aside t u) : Aside s u :=
  ⟨h'.frame.trans h.frame, h'.stack.trans h.stack, h.evolves.trans h'.evolves⟩

/-- The host does not change settings. -/
theorem Aside.settings (h : Aside s t) {vm : Vm} (hvm : s.world.vm? s.frame.vm = some vm) :
    t.vm.settings = vm.settings := by
  obtain ⟨vm', hvm', hevolves⟩ := h.evolves.machine hvm
  have hsame : t.vm = vm' := by
    unfold World.vm? at hvm'
    unfold Running.vm
    rw [h.frame, Array.getD_eq_getD_getElem?, hvm', Option.getD_some]
  rw [hsame, hevolves.settings]

/-- An effect leaves all to the host, whether it ends well or not. -/
abbrev StaysAside (x : Effect α) : Prop := Keeps Aside x

theorem StaysAside.bind {x : Effect α} {f : α → Effect β} (hx : StaysAside x)
    (hf : ∀ a, StaysAside (f a)) : StaysAside (x >>= f) := by
  intro s
  have hs := hx s
  rw [after_bind]
  unfold after at hs
  cases hxs : x s with
  | ok a s' =>
    rw [hxs] at hs
    exact hs.trans (hf a s')
  | error failure s' =>
    rw [hxs] at hs
    exact hs

theorem aside_pure (a : α) : StaysAside (pure a : Effect α) := fun s => .refl s

theorem aside_settings : StaysAside settings := fun s => .refl s

theorem aside_context (opcode : Opcode) : StaysAside (context opcode) := fun s => .refl s

theorem aside_perform (p : HookProgram α) : StaysAside (perform p) := by
  intro s
  have hworld := p.perform_evolves s.world
  unfold after perform
  rcases hp : p.perform s.world with ⟨w, _ | _⟩ <;> rw [hp] at hworld <;> exact ⟨rfl, rfl, hworld⟩

theorem aside_stepHook (opcode : Opcode) : StaysAside (stepHook opcode) := by
  refine aside_settings.bind fun settings => ?_
  cases settings.hooks.step with
  | none => exact aside_pure _
  | some hook => exact (aside_context _).bind fun _ => aside_perform _

theorem aside_interrupt (opcode : Opcode) : StaysAside (interrupt opcode) := by
  refine aside_settings.bind fun settings => ?_
  cases settings.hooks.interrupt with
  | none => exact aside_pure _
  | some hook => exact (aside_context _).bind fun _ => aside_perform _

theorem aside_passBreakpoint : StaysAside passBreakpoint := by
  refine aside_settings.bind fun settings => ?_
  cases settings.hooks.breakpoint with
  | none => exact aside_pure _
  | some hook => exact (aside_context _).bind fun _ => aside_perform _

theorem aside_trace (i : Instruction) : StaysAside (trace i) := by
  intro s
  show Aside s (after (ite _ _ _) s)
  split
  · exact ⟨rfl, rfl, steady_evolves.trace s _⟩
  · exact .refl s

/-- What comes before an operation moves the frame on, and leaves all else to the host. -/
theorem aside_prelude (i : Instruction) (s : Running) :
    Aside s.advanced ((prelude i).after s) := by
  have hrest : StaysAside (do
      trace i
      stepHook i.opcode
      if i.opcode = .breakpoint then passBreakpoint else return none) := by
    refine (aside_trace i).bind fun _ => (aside_stepHook _).bind fun _ => ?_
    split
    · exact aside_passBreakpoint
    · exact aside_pure _
  exact hrest s.advanced

theorem ends_prelude (i : Instruction) : (prelude i).Ends s fun _ t => Aside s.advanced t := by
  intro early t h
  have hs := aside_prelude i s
  unfold after at hs
  rwa [h] at hs

theorem keeps_prelude {V : Verdict} (hV : Verdict.Moving V) (i : Instruction) :
    Upholds V (prelude i) := by
  have hcalm := hV.toCalm
  refine Upholds.bind hcalm (keeps_moveFrame hV fun f => f.sameCall_moved _ _ _) fun _ => ?_
  refine (keeps_trace hcalm i).bind hcalm fun _ => (keeps_stepHook hcalm _).bind hcalm fun _ => ?_
  exact .ite (keeps_passBreakpoint hcalm) (keeps_pure hcalm _)

/-- What holds of basic effects holds of an instruction, if it holds of the operation when that
comes to execute. -/
theorem upholdsAt_dispatch {V : Verdict} (hV : Verdict.Moving V) {i : Instruction}
    (h : ∀ t, prelude i s = .ok none t → UpholdsAt V t (execute i.operation i)) :
    UpholdsAt V s (dispatch i) := by
  rw [dispatch_eq]
  refine upholds_bind_at hV.toCalm (keeps_prelude hV i s) fun early t ht => ?_
  cases early with
  | some values => exact keeps_pure hV.toCalm _ t
  | none => exact h t ht

/-- Without tracing and with hooks that do nothing, all that comes before an operation is to move the
frame on. -/
theorem prelude_of_silent (htrace : s.vm.settings.trace = false)
    (hooks : s.vm.settings.hooks.Transparent) (i : Instruction) :
    prelude i s = .ok none s.advanced := by
  have htraced : trace i s.advanced = .ok () s.advanced := by
    unfold trace
    simp only [vm_bind, get_bind]
    rw [if_neg (by rw [show s.advanced.vm.settings.trace = false from htrace]; simp)]
    rfl
  unfold prelude
  simp only [modifyFrame_bind]
  refine (bind_of_ok (t := s.advanced) htraced).trans ?_
  exact hooks_pass (s := s.advanced) hooks i.opcode

/-! ## Instructions that end their frame -/

end Effect

namespace Machine

variable {m : Machine}

/-- An operation that executes is that of an instruction that is dispatched. -/
theorem executing_spec {i : Instruction} {t : Running} (h : m.executing? = some (i, t)) :
    ∃ f, m.dispatching? = some (f, i) ∧ Effect.prelude i ⟨m.world, f, m.stack⟩ = .ok none t := by
  unfold executing? at h
  split at h
  · rename_i f hcontrol
    split at h
    · rename_i i' hi
      split at h
      · rename_i t' hprelude
        cases h
        refine ⟨f, ?_, hprelude⟩
        unfold dispatching?
        simp only [hcontrol, hi, Option.map_some]
      · cases h
    · cases h
  · cases h

theorem executing_of_prelude {f : Frame} {i : Instruction} {t : Running}
    (h : m.dispatching? = some (f, i))
    (hprelude : Effect.prelude i ⟨m.world, f, m.stack⟩ = .ok none t) :
    m.executing? = some (i, t) := by
  obtain ⟨hcontrol, hi⟩ := dispatching_spec h
  unfold executing?
  simp only [hcontrol, hi, hprelude]

/-- An instruction whose hooks have passed does what its operation does. -/
theorem acting_of_executing {i : Instruction} {t : Running} (h : m.executing? = some (i, t)) :
    m.acting? = some (Effect.execute i.operation i t) := by
  obtain ⟨f, hdispatching, hprelude⟩ := executing_spec h
  rw [acting_of_dispatching hdispatching, Effect.dispatch_eq, Effect.bind_of_ok hprelude]
  rfl

/-- A frame that takes the results of a call goes on. -/
theorem ends_accept (next : Continuation) (values : List Value) (s : Running) :
    (accept next values).Ends s fun outcome _ => outcome = .next := by
  unfold accept
  cases next with
  | results base wanted => exact .last fun _ _ => Effect.ends_pure rfl
  | iteration base arity distance => exact .last fun _ _ => Effect.ends_pure rfl

end Machine

end ScriptMachine
