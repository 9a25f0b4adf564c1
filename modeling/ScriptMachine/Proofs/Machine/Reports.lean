import Mathlib
import ScriptMachine.Machine.Load
import ScriptMachine.Proofs.Machine.Endings

/-!
# Failures are reported once

A failure that is raised while a frame is the innermost one is located in that frame, reported to
the panic hook of its machine, and raised again as an error value.  The calls around it, of whatever
machine, hand that value on as it is, and no panic hook is called for it again.
-/

namespace ScriptMachine

/-! ## What is reported -/

/-- Whether a failure is one that frames report: a fault, or an error value that no frame has
reported yet. -/
def Failure.isUnreported : Failure → Bool
  | .fault _ | .script _ false => true
  | _ => false

namespace Frame

/-- The place of the instruction that runs, as it stands before messages: `name:line: `, or
`name:pc slot (OPERATION): ` when the prototype has no lines. -/
def place (f : Frame) (p : Prototype) : Bytes :=
  if p.lines.isSome then
    p.name ++ .ofString ":" ++ .ofInt (p.lineAt f.current) ++ .ofString ": "
  else
    p.name ++ .ofString ":pc " ++ .ofNat f.current ++ .ofString " (" ++
      (match f.operation p with
        | some op => op.name
        | none => .ofString "?") ++ .ofString "): "

/-- The error value that a frame raises in place of a payload: a string with the place of the
instruction before it, or the payload as it is when it is no string and the settings allow that.
The payload of a fault is its text, which ends at the first zero byte as all messages do. -/
def located (f : Frame) (p : Prototype) (proxies : Bool) (payload : Value) : Value :=
  match payload with
  | .string text => .string (f.place p ++ text)
  | payload => if proxies then payload else .string (f.place p ++ payload.kindName)

/-- The message with which a frame reports a payload. -/
def message (f : Frame) (p : Prototype) (proxies : Bool) (payload : Value) : Bytes :=
  match payload with
  | .string text => f.place p ++ text
  | payload => if proxies then payload.kindName else f.place p ++ payload.kindName

theorem locate_eq (f : Frame) (p : Prototype) (message : Bytes) :
    f.locate p message = f.place p ++ message := by
  unfold locate place
  split
  · simp [Bytes.concat]
  · cases f.operation p <;> simp [Bytes.concat]

end Frame

theorem reportOf_eq (settings : Settings) (f : Frame) (p : Prototype) (payload : Value) :
    reportOf settings f p payload =
      (f.message p settings.allowProxyErrors payload,
        f.located p settings.allowProxyErrors payload) := by
  unfold reportOf
  cases payload with
  | string text => simp only [Frame.locate_eq, Frame.message, Frame.located]
  | _ =>
    cases settings.allowProxyErrors <;>
      simp [Frame.locate_eq, Frame.message, Frame.located]

/-! ## Calls of panic hooks -/

/-- A call of a panic hook. -/
structure PanicCall where
  /-- The machine whose hook is called. -/
  vm : VmId
  /-- The hook. -/
  hook : Bytes → Value → HookContext → HookProgram Unit
  /-- The message. -/
  message : Bytes
  /-- The error value. -/
  error : Value
  /-- What the hook sees of the frame. -/
  context : HookContext

/-- What a panic call does to the world, and how it ends. -/
def PanicCall.perform (call : PanicCall) (w : World) : World × Except Failure Unit :=
  (call.hook call.message call.error call.context).perform w

/-- The call of a panic hook when a failure leaves a frame. -/
def panicCallOf (w : World) (f : Frame) (failure : Failure) : Option PanicCall :=
  match w.vm? f.vm with
  | some vm =>
    if vm.settings.errorHandling && failure.isUnreported then
      vm.settings.hooks.panic.map fun hook =>
        { vm := f.vm, hook
          message :=
            f.message (vm.prototype f.prototype) vm.settings.allowProxyErrors failure.payload
          error := f.located (vm.prototype f.prototype) vm.settings.allowProxyErrors failure.payload
          context :=
            Effect.contextOf f ((f.operation (vm.prototype f.prototype)).getD .nop) }
    else none
  | none => none

/-- Raising a payload again, with what is reported. -/
theorem raise_eq (w : World) (vm : Vm) (f : Frame) (payload : Value) :
    let p := vm.prototype f.prototype
    let error := f.located p vm.settings.allowProxyErrors payload
    raise w vm f payload =
      match vm.settings.hooks.panic with
      | none => (w, .script error true)
      | some hook =>
        match (hook (f.message p vm.settings.allowProxyErrors payload) error
          (Effect.contextOf f ((f.operation p).getD .nop))).perform w with
        | (w, .ok ()) => (w, .script error true)
        | (w, .error failure) => (w, failure) := by
  have hreport := reportOf_eq vm.settings f (vm.prototype f.prototype) payload
  unfold raise
  dsimp only
  generalize reportOf vm.settings f (vm.prototype f.prototype) payload = report at hreport ⊢
  subst hreport
  cases vm.settings.hooks.panic <;> rfl

theorem raise_world (w : World) (vm : Vm) (f : Frame) (payload : Value) :
    (raise w vm f payload).1 =
      match vm.settings.hooks.panic with
      | some hook =>
        ((hook (f.message (vm.prototype f.prototype) vm.settings.allowProxyErrors payload)
          (f.located (vm.prototype f.prototype) vm.settings.allowProxyErrors payload)
          (Effect.contextOf f ((f.operation (vm.prototype f.prototype)).getD .nop))).perform w).1
      | none => w := by
  rw [raise_eq]
  cases vm.settings.hooks.panic with
  | none => rfl
  | some hook =>
    dsimp only
    split <;> rename_i hperform <;> rw [hperform]

/-- Hooks that return let the located error value be raised. -/
theorem raise_failure {vm : Vm} (hpanic : ∀ hook, vm.settings.hooks.panic = some hook →
      ∀ message error context w, ((hook message error context).perform w).2 = .ok ())
    (w : World) (f : Frame) (payload : Value) :
    (raise w vm f payload).2 =
      .script (f.located (vm.prototype f.prototype) vm.settings.allowProxyErrors payload) true := by
  rw [raise_eq]
  cases hhook : vm.settings.hooks.panic with
  | none => rfl
  | some hook =>
    dsimp only
    split
    · rfl
    · rename_i hperform
      have hreturns := congrArg Prod.snd hperform
      rw [hpanic hook hhook] at hreturns
      cases hreturns

section Handling

variable {w : World} {f : Frame} {failure : Failure} {vm : Vm}

/-- Settings that handle errors have failures raised again that are unreported. -/
theorem handle_of_unreported (hvm : w.vm? f.vm = some vm)
    (hreports : (vm.settings.errorHandling && failure.isUnreported) = true) :
    handle w f failure = raise w vm f failure.payload := by
  obtain ⟨hhandling, hkind⟩ := Bool.and_eq_true_iff.1 hreports
  unfold handle
  rw [hvm]
  cases failure with
  | fault fault => simp only [hhandling, if_true, Failure.payload]
  | script payload reported =>
    cases reported with
    | true => cases hkind
    | false => simp only [hhandling, if_true, Failure.payload]
  | _ => cases hkind

/-- All other failures pass. -/
theorem handle_of_silent
    (hsilent : ∀ vm, w.vm? f.vm = some vm →
      (vm.settings.errorHandling && failure.isUnreported) = false) :
    handle w f failure = (w, failure) := by
  unfold handle
  cases hvm : w.vm? f.vm with
  | none => rfl
  | some vm =>
    have hno := hsilent vm hvm
    cases failure with
    | fault fault =>
      have hhandling : vm.settings.errorHandling = false := by
        simpa [Failure.isUnreported] using hno
      simp [hhandling]
    | script payload reported =>
      cases reported with
      | true => rfl
      | false =>
        have hhandling : vm.settings.errorHandling = false := by
          simpa [Failure.isUnreported] using hno
        simp [hhandling]
    | _ => rfl

/-- All that the world sees of a failure that leaves a frame is the panic call. -/
theorem handle_world (w : World) (f : Frame) (failure : Failure) :
    (handle w f failure).1 =
      match panicCallOf w f failure with
      | some call => (call.perform w).1
      | none => w := by
  unfold panicCallOf
  cases hvm : w.vm? f.vm with
  | none =>
    rw [handle_of_silent fun vm h => by rw [hvm] at h; cases h]
  | some vm =>
    dsimp only
    cases hreports : vm.settings.errorHandling && failure.isUnreported with
    | true =>
      rw [handle_of_unreported hvm hreports, raise_world, if_pos rfl]
      cases vm.settings.hooks.panic <;> rfl
    | false =>
      rw [handle_of_silent fun vm' h => by rw [hvm] at h; cases h; exact hreports]
      rfl

/-- What leaves a frame is the failure as it was, when its settings do not report it, or a reported
error value, or what the panic hook has raised. -/
theorem handle_failure (w : World) (f : Frame) (failure : Failure) :
    ((handle w f failure).2 = failure ∧ ∀ vm, w.vm? f.vm = some vm →
        (vm.settings.errorHandling && failure.isUnreported) = false) ∨
      (∃ payload, (handle w f failure).2 = .script payload true) ∨
      ∃ call, panicCallOf w f failure = some call ∧
        (call.perform w).2 = .error (handle w f failure).2 := by
  by_cases hreports : ∃ vm, w.vm? f.vm = some vm ∧
      (vm.settings.errorHandling && failure.isUnreported) = true
  · obtain ⟨vm, hvm, hreports⟩ := hreports
    rw [handle_of_unreported hvm hreports, raise_eq]
    cases hhook : vm.settings.hooks.panic with
    | none => exact .inr (.inl ⟨_, rfl⟩)
    | some hook =>
      have hcall := panicCallOf.eq_def w f failure
      simp only [hvm, hreports, hhook, if_true, Option.map_some] at hcall
      dsimp only
      split
      · exact .inr (.inl ⟨_, rfl⟩)
      · rename_i hperform
        exact .inr (.inr ⟨_, hcall, congrArg Prod.snd hperform⟩)
  · have hsilent : ∀ vm, w.vm? f.vm = some vm →
        (vm.settings.errorHandling && failure.isUnreported) = false := fun vm hvm =>
      Bool.eq_false_iff.2 fun h => hreports ⟨vm, hvm, h⟩
    exact .inl ⟨by rw [handle_of_silent hsilent], hsilent⟩

/-- The panic hook that is called is that of the frame's machine. -/
theorem hook_of_panicCallOf {call : PanicCall} (h : panicCallOf w f failure = some call) :
    ∃ vm, w.vm? f.vm = some vm ∧ vm.settings.hooks.panic = some call.hook := by
  unfold panicCallOf at h
  split at h
  · rename_i vm hvm
    split at h
    · obtain ⟨hook, hhook, rfl⟩ := Option.map_eq_some_iff.1 h
      exact ⟨vm, hvm, hhook⟩
    · cases h
  · cases h

/-- A reported error value is not reported again, whatever the settings. -/
theorem panicCallOf_reported (w : World) (f : Frame) (error : Value) :
    panicCallOf w f (.script error true) = none := by
  unfold panicCallOf
  cases w.vm? f.vm with
  | none => rfl
  | some vm => simp [Failure.isUnreported]

theorem handle_reported (w : World) (f : Frame) (error : Value) :
    handle w f (.script error true) = (w, .script error true) :=
  handle_of_silent fun vm _ => by simp [Failure.isUnreported]

end Handling

namespace Machine

/-! ## Panic calls of runs -/

/-- The panic call of the next step of a run: that of the failure with which it ends a frame. -/
def panicCall? (m : Machine) : Option PanicCall :=
  match m.ending? with
  | some (s, .error failure) => panicCallOf s.world s.frame failure
  | _ => none

/-- The panic calls of the next steps of a run. -/
def panicCalls (m : Machine) (steps : Nat) : List PanicCall :=
  (List.range steps).filterMap fun i => (step^[i] m).panicCall?

theorem panicCalls_add (m : Machine) (j k : Nat) :
    m.panicCalls (j + k) = m.panicCalls j ++ (step^[j] m).panicCalls k := by
  unfold panicCalls
  rw [List.range_add, List.filterMap_append, List.filterMap_map]
  congr 2
  funext i
  simp [← Function.iterate_add_apply, Nat.add_comm]

theorem panicCalls_one (m : Machine) : m.panicCalls 1 = m.panicCall?.toList := by
  unfold panicCalls
  cases hcall : m.panicCall? <;> simp [List.range_succ, hcall]

/-- The call that a run has come back to lets its failure pass: a frame does what it does in any
case, and a function of the host ends with that failure. -/
def LetsPass (m : Machine) : Prop :=
  match m with
  | ⟨w, .native resume :: _, .fail failure⟩ =>
    ((resume (.error failure)).settle w).2 = .fail failure
  | _ => True

/-- A failure is there while a frame is the innermost one: it is raised in the frame, or it gets
there in some steps because the functions of the host that the frame has called let it pass. -/
inductive Raises (failure : Failure) : Nat → Machine → Running → Prop where
  /-- The failure ends the frame in the next step. -/
  | inFrame {m : Machine} {s : Running} (ending : m.ending? = some (s, .error failure)) :
    Raises failure 0 m s
  /-- A function of the host lets the failure pass. -/
  | inNative {w : World} {resume : Except Failure (List Value) → FunctionProgram} {stack : Stack}
    {n : Nat} {s : Running} (passes : LetsPass ⟨w, .native resume :: stack, .fail failure⟩)
    (rest : Raises failure n (step ⟨w, .native resume :: stack, .fail failure⟩) s) :
    Raises failure (n + 1) ⟨w, .native resume :: stack, .fail failure⟩ s

/-- Until the failure ends the frame no panic hook is called. -/
theorem Raises.before {failure : Failure} {n : Nat} {m : Machine} {s : Running}
    (h : Raises failure n m s) :
    m.panicCalls n = [] ∧ (step^[n] m).ending? = some (s, .error failure) := by
  induction h with
  | inFrame ending => exact ⟨rfl, ending⟩
  | @inNative w resume stack n s _ _ ih =>
    refine ⟨?_, ih.2⟩
    rw [Nat.add_comm, panicCalls_add]
    exact ih.1

/-- What a reported error value does to the calls that let it pass. -/
theorem passing_step {w : World} {waiting : Suspended} {stack : Stack} {error : Value}
    (h : LetsPass ⟨w, waiting :: stack, .fail (.script error true)⟩) :
    (step ⟨w, waiting :: stack, .fail (.script error true)⟩).control = .fail (.script error true) ∧
      (step ⟨w, waiting :: stack, .fail (.script error true)⟩).stack = stack ∧
      panicCall? ⟨w, waiting :: stack, .fail (.script error true)⟩ = none := by
  cases waiting with
  | frame f next =>
    have hstep : step ⟨w, .frame f next :: stack, .fail (.script error true)⟩ =
        abort w f stack (.script error true) := rfl
    rw [hstep]
    unfold abort
    rw [handle_reported]
    exact ⟨rfl, rfl, panicCallOf_reported w f error⟩
  | native resume =>
    have hstep : step ⟨w, .native resume :: stack, .fail (.script error true)⟩ =
        ofSettled stack ((resume (.error (.script error true))).settle w) := rfl
    have hpasses : ((resume (.error (.script error true))).settle w).2 =
      .fail (.script error true) := h
    rw [hstep]
    generalize (resume (.error (.script error true))).settle w = r at hpasses ⊢
    obtain ⟨w', settled⟩ := r
    cases hpasses
    exact ⟨rfl, rfl, rfl⟩

/-- A reported error value goes through the calls that let it pass, unchanged and without a panic
call. -/
theorem passing_run {m : Machine} {error : Value}
    (hcontrol : m.control = .fail (.script error true)) {count : Nat}
    (hcount : count ≤ m.stack.length) (hpass : ∀ j < count, (step^[j] m).LetsPass) :
    (step^[count] m).control = .fail (.script error true) ∧
      (step^[count] m).stack = m.stack.drop count ∧ m.panicCalls count = [] := by
  induction count with
  | zero => exact ⟨hcontrol, rfl, rfl⟩
  | succ count ih =>
    obtain ⟨hcontrol', hstack', hcalls⟩ :=
      ih (Nat.le_of_succ_le hcount) fun j hj => hpass j (Nat.lt_succ_of_lt hj)
    have hlets := hpass count (Nat.lt_succ_self count)
    have hcons : m.stack.drop count = m.stack[count] :: m.stack.drop (count + 1) :=
      List.drop_eq_getElem_cons hcount
    rw [Function.iterate_succ_apply', panicCalls_add, hcalls]
    rw [hcons] at hstack'
    show _ ∧ _ ∧ [] ++ (step^[count] m).panicCalls 1 = []
    generalize step^[count] m = now at hcontrol' hstack' hlets ⊢
    obtain ⟨w, stack, control⟩ := now
    cases hcontrol'
    cases hstack'
    obtain ⟨hcontrol'', hstack'', hnone⟩ := passing_step hlets
    refine ⟨hcontrol'', hstack'', ?_⟩
    rw [panicCalls_one, hnone]
    rfl

/-- The frame in which a failure has been raised reports it and raises it again. -/
theorem reporting_step {m : Machine} {s : Running} {failure : Failure} {vm : Vm}
    (hending : m.ending? = some (s, .error failure)) (hvm : s.world.vm? s.frame.vm = some vm)
    (hreports : (vm.settings.errorHandling && failure.isUnreported) = true)
    (hpanic : ∀ hook, vm.settings.hooks.panic = some hook →
      ∀ message error context w, ((hook message error context).perform w).2 = .ok ()) :
    m.step.control = .fail (.script (s.frame.located (vm.prototype s.frame.prototype)
        vm.settings.allowProxyErrors failure.payload) true) ∧
      m.step.stack = s.stack ∧
      m.step.world = endFrame (match m.panicCall? with
        | some call => (call.perform s.world).1
        | none => s.world) s.frame := by
  have hcall : m.panicCall? = panicCallOf s.world s.frame failure := by
    unfold panicCall?
    rw [hending]
  have hworld := handle_world s.world s.frame failure
  have hfailure := raise_failure hpanic s.world s.frame failure.payload
  rw [step_of_ending hending, hcall, ← hworld]
  refine ⟨?_, rfl, rfl⟩
  show Control.fail (handle s.world s.frame failure).2 = _
  rw [handle_of_unreported hvm hreports, hfailure]

/-- One report for one failure.  A fault or an unreported error value that is raised while a frame
is the innermost one, in a machine that handles errors with a panic hook that returns, leaves that
frame as one error value: its payload with the place of the instruction before it, once, or as it
is.  As far as the calls below let it pass, however many and whatever their machines, the value
stays the same, and the only panic call of all these steps is the one that the frame has made. -/
theorem reported_once {m : Machine} {failure : Failure} {n : Nat} {s : Running} {vm : Vm}
    {count : Nat} (hraised : Raises failure n m s) (hkind : failure.isUnreported)
    (hvm : s.world.vm? s.frame.vm = some vm) (hhandling : vm.settings.errorHandling)
    (hpanic : ∀ hook, vm.settings.hooks.panic = some hook →
      ∀ message error context w, ((hook message error context).perform w).2 = .ok ())
    (hcount : count ≤ s.stack.length) (hpass : ∀ j < count, (step^[n + 1 + j] m).LetsPass) :
    let p := vm.prototype s.frame.prototype
    let error := s.frame.located p vm.settings.allowProxyErrors failure.payload
    (∀ j ≤ count, (step^[n + 1 + j] m).control = .fail (.script error true) ∧
        (step^[n + 1 + j] m).stack = s.stack.drop j) ∧
      m.panicCalls (n + 1 + count) =
        (vm.settings.hooks.panic.map fun hook =>
          ({ vm := s.frame.vm, hook
             message := s.frame.message p vm.settings.allowProxyErrors failure.payload, error
             context := { prototype := s.frame.prototype, registers := s.frame.registers
                          slot := s.frame.current, top := s.frame.top
                          opcode := (s.frame.operation p).getD .nop } } : PanicCall)).toList ∧
      (step^[n + 1] m).world = endFrame (match (step^[n] m).panicCall? with
        | some call => (call.perform s.world).1
        | none => s.world) s.frame := by
  intro p error
  obtain ⟨hbefore, hending⟩ := hraised.before
  have hreports : (vm.settings.errorHandling && failure.isUnreported) = true := by
    rw [hkind, hhandling]
    rfl
  obtain ⟨hcontrol, hstack, hworld⟩ := reporting_step hending hvm hreports hpanic
  rw [← Function.iterate_succ_apply' step n m] at hcontrol hstack hworld
  have hrun : ∀ j ≤ count, (step^[n + 1 + j] m).control = .fail (.script error true) ∧
      (step^[n + 1 + j] m).stack = s.stack.drop j ∧ (step^[n + 1] m).panicCalls j = [] := by
    intro j hj
    have hlater : step^[n + 1 + j] m = step^[j] (step^[n + 1] m) := by
      rw [Nat.add_comm, Function.iterate_add_apply]
    rw [hlater, ← hstack]
    refine passing_run hcontrol (by rw [hstack]; omega) fun i hi => ?_
    rw [← Function.iterate_add_apply, Nat.add_comm]
    exact hpass i (by omega)
  refine ⟨fun j hj => ⟨(hrun j hj).1, (hrun j hj).2.1⟩, ?_, hworld⟩
  rw [panicCalls_add, panicCalls_add, hbefore, (hrun count le_rfl).2.2, panicCalls_one]
  unfold panicCall? panicCallOf
  rw [hending]
  dsimp only
  rw [hvm]
  dsimp only
  rw [if_pos hreports]
  cases vm.settings.hooks.panic <;> rfl

/-- A fault that functions of the host let pass, above the frame that reports it and below. -/
theorem reported_once_among_functions :
    let vm : Vm :=
      { Vm.empty with settings := { hooks := { panic := some fun _ _ _ => .done () } } }
    let frame (serial : Nat) : Frame :=
      { id := ⟨serial⟩, registers := #[], vm := ⟨0⟩, prototype := 0, upvalues := #[]
        varargs := [] }
    let passing : Suspended := .native fun
      | .ok values => .done values
      | .error failure => .fail failure
    let m : Machine :=
      ⟨{ vms := #[vm] },
        [passing, .frame (frame 1) (.results 0 0), passing, .frame (frame 0) (.results 0 0)],
        .fail (.fault .stackOverflow)⟩
    (step^[4] m).control =
        .fail (.script (.string (.ofString ":pc 0 (?): stack overflow")) true) ∧
      (step^[4] m).stack = [] ∧ (m.panicCalls 4).length = 1 := by
  intro vm frame passing m
  have hraised : Raises (.fault .stackOverflow) 1 m
      ⟨{ vms := #[vm] }, frame 1, [passing, .frame (frame 0) (.results 0 0)]⟩ :=
    .inNative rfl (.inFrame rfl)
  have hpanic : ∀ hook, vm.settings.hooks.panic = some hook →
      ∀ message error context w, ((hook message error context).perform w).2 = .ok () := by
    rintro hook h message error context w
    cases h
    rfl
  have hpass : ∀ j < 2, (step^[1 + 1 + j] m).LetsPass := by
    intro j hj
    match j, hj with
    | 0, _ => exact rfl
    | 1, _ => exact trivial
  have hvm : ({ vms := #[vm] } : World).vm? (frame 1).vm = some vm := rfl
  have hcount : 2 ≤ List.length [passing, .frame (frame 0) (.results 0 0)] := le_rfl
  obtain ⟨hafter, hcalls, -⟩ := reported_once hraised rfl hvm rfl hpanic hcount hpass
  have herror : (frame 1).located (vm.prototype 0) false (.string (Fault.message .stackOverflow)) =
      .string (.ofString ":pc 0 (?): stack overflow") := by decide +kernel
  refine ⟨(hafter 2 le_rfl).1.trans ?_, (hafter 2 le_rfl).2, ?_⟩
  · exact congrArg (fun error => Control.fail (.script error true)) herror
  · rw [hcalls]
    rfl

end Machine

end ScriptMachine
