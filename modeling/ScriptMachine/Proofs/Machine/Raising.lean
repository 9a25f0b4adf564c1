import ScriptMachine.Library
import ScriptMachine.Proofs.Machine.Reports
import ScriptMachine.Proofs.Machine.Worlds

/-!
# Failures of the host

Failures come into a run in three ways: an instruction raises one, the machine refuses a call, or a
program of the host ends with one.  When the programs of the host raise only failures of some kind,
and hand on what their calls have ended with, then a run fails only as its instructions do.
-/

namespace ScriptMachine

/-- The kinds of failures that contain all that scripts and the machine may handle. -/
def Failure.Covers (P : Failure → Prop) : Prop := ∀ failure, failure.isScriptLevel = true → P failure

/-! ## Programs -/

namespace Program

variable {κ α β : Type} {base : World} {P Q : Failure → Prop}

/-- However a program goes on, in worlds that come out of the base, it raises only failures of a
kind, besides those with which its calls have ended. -/
def RaisesOnly (base : World) (p : Program κ α) (P : Failure → Prop) : Prop :=
  match p with
  | done _ => True
  | fail failure => P failure
  | call _ resume =>
    ∀ answer, (resume answer).RaisesOnly base fun failure => P failure ∨ answer = .error failure
  | get _ _ resume => ∀ value, (resume value).RaisesOnly base P
  | set _ _ _ rest => rest.RaisesOnly base P
  | next _ _ resume => ∀ pair, (resume pair).RaisesOnly base P
  | length _ resume => ∀ n, (resume n).RaisesOnly base P
  | write _ rest | close _ rest | release _ rest | record _ rest => rest.RaisesOnly base P
  | breakpoint vm index slot enabled rest =>
    (∀ w missing, base.Evolves w → w.setBreakpoint vm index slot enabled = .error missing →
      P (.missingSlot missing)) ∧ rest.RaisesOnly base P
  | count _ _ resume => ∀ n, (resume n).RaisesOnly base P

theorem RaisesOnly.mono {p : Program κ α} (h : p.RaisesOnly base P)
    (hPQ : ∀ failure, P failure → Q failure) : p.RaisesOnly base Q := by
  induction p generalizing P Q with
  | done result => trivial
  | fail failure => exact hPQ failure h
  | call target resume ih =>
    exact fun answer => ih answer (h answer) fun failure => .imp_left (hPQ failure)
  | get t key resume ih => exact fun value => ih value (h value) hPQ
  | set t key value rest ih => exact ih h hPQ
  | next t key resume ih => exact fun pair => ih pair (h pair) hPQ
  | length t resume ih => exact fun n => ih n (h n) hPQ
  | write bytes rest ih => exact ih h hPQ
  | close vm rest ih => exact ih h hPQ
  | release vm rest ih => exact ih h hPQ
  | «breakpoint» vm index slot enabled rest ih =>
    exact ⟨fun w missing hw hset => hPQ _ (h.1 w missing hw hset), ih h.2 hPQ⟩
  | record event rest ih => exact ih h hPQ
  | count vm kind resume ih => exact fun n => ih n (h n) hPQ

theorem RaisesOnly.bind {p : Program κ α} {f : α → Program κ β} (h : p.RaisesOnly base P)
    (hf : ∀ a, (f a).RaisesOnly base P) : (p.bind f).RaisesOnly base P := by
  induction p generalizing P with
  | done result => exact hf result
  | fail failure => exact h
  | call target resume ih =>
    exact fun answer => ih answer (h answer) fun a => (hf a).mono fun _ => .inl
  | get t key resume ih => exact fun value => ih value (h value) hf
  | set t key value rest ih => exact ih h hf
  | next t key resume ih => exact fun pair => ih pair (h pair) hf
  | length t resume ih => exact fun n => ih n (h n) hf
  | write bytes rest ih => exact ih h hf
  | close vm rest ih => exact ih h hf
  | release vm rest ih => exact ih h hf
  | «breakpoint» vm index slot enabled rest ih => exact ⟨h.1, ih h.2 hf⟩
  | record event rest ih => exact ih h hf
  | count vm kind resume ih => exact fun n => ih n (h n) hf

end Program

/-- What a program has come to raises only failures of a kind. -/
def Settled.RaisesOnly {κ α : Type} (base : World) (P : Failure → Prop) : Settled κ α → Prop
  | .done _ => True
  | .fail failure => P failure
  | .call _ resume =>
    ∀ answer, (resume answer).RaisesOnly base fun failure => P failure ∨ answer = .error failure

section

variable {base : World} {P : Failure → Prop}

theorem Program.RaisesOnly.settle {κ α : Type} {p : Program κ α} (h : p.RaisesOnly base P)
    (hP : Failure.Covers P) {w : World} (hw : base.Evolves w) :
    (p.settle w).2.RaisesOnly base P := by
  induction p generalizing w with
  | done result => trivial
  | fail failure => exact h
  | call target resume => exact h
  | get t key resume ih => exact ih _ (h _) hw
  | set t key value rest ih =>
    unfold Program.settle
    split
    · exact ih h (hw.trans (.of_same rfl rfl))
    · exact hP _ rfl
  | next t key resume ih =>
    unfold Program.settle
    split
    · exact ih _ (h _) hw
    · exact hP _ rfl
  | length t resume ih => exact ih _ (h _) hw
  | write bytes rest ih => exact ih h (hw.trans (.of_same rfl rfl))
  | close vm rest ih => exact ih h (hw.trans (World.hosted_evolves.close w vm))
  | release vm rest ih => exact ih h (hw.trans (World.hosted_evolves.release w vm))
  | «breakpoint» vm index slot enabled rest ih =>
    unfold Program.settle
    split
    · exact ih h.2 (hw.trans (World.evolves_setBreakpoint ‹_›))
    · exact h.1 w _ hw ‹_›
  | record event rest ih => exact ih h (hw.trans (.of_same rfl rfl))
  | count vm kind resume ih => exact ih _ (h _) (hw.trans (.of_same rfl rfl))

theorem Program.RaisesOnly.perform {α : Type} {p : HookProgram α} (h : p.RaisesOnly base P)
    (hP : Failure.Covers P) {w : World} (hw : base.Evolves w) {failure : Failure}
    (hfails : (p.perform w).2 = .error failure) : P failure := by
  have hsettled := h.settle hP hw
  unfold Program.perform at hfails
  rcases hsettles : p.settle w with ⟨w', result | failure' | ⟨⟨⟩, -⟩⟩
  · rw [hsettles] at hfails
    cases hfails
  · rw [hsettles] at hfails hsettled
    cases hfails
    exact hsettled

/-! ## Hosts -/

/-- Hooks, handlers of method calls and functions of the host raise only failures of a kind. -/
structure World.HostRaisesOnly (w base : World) (P : Failure → Prop) : Prop where
  /-- The hooks and the handlers do. -/
  settings : ∀ index {α : Type} {p : HookProgram α},
    (w.vms.getD index .empty).settings.Offers p → p.RaisesOnly base P
  /-- The functions do. -/
  functions : ∀ {id name run}, w.function? id = some (.native name run) →
    ∀ args, (run args).RaisesOnly base P

theorem World.HostRaisesOnly.mono {w : World} {Q : Failure → Prop} (h : w.HostRaisesOnly base P)
    (hPQ : ∀ failure, P failure → Q failure) : w.HostRaisesOnly base Q where
  settings index _ _ hp := (h.settings index hp).mono hPQ
  functions hrun args := (h.functions hrun args).mono hPQ

theorem World.hostRaisesOnly_default : World.HostRaisesOnly {} base P where
  settings _ _ _ hp := absurd hp (Settings.not_offers rfl rfl)
  functions h := by simp [World.function?] at h

/-- A machine whose settings raise only such failures leaves the host as it is. -/
theorem World.HostRaisesOnly.loadBytes {w w' : World} {bytes : Bytes}
    {environment : Option TableId} {settings : Settings} {entry : Entry}
    (hw : w.HostRaisesOnly base P)
    (hsettings : ∀ {α : Type} {p : HookProgram α}, settings.Offers p → p.RaisesOnly base P)
    (h : w.loadBytes bytes environment settings = .ok (entry, w')) : w'.HostRaisesOnly base P where
  settings index _ _ hp := by
    rcases (host_of_loadBytes h).1 index with hown | hold
    · exact hsettings (hown ▸ hp)
    · exact hw.settings index (hold ▸ hp)
  functions hrun := by
    rcases (host_of_loadBytes h).2 hrun with hold | ⟨c, hc⟩
    · exact hw.functions hold
    · cases hc

theorem World.SameHost.hostRaisesOnly {w w' : World} (h : w.SameHost w')
    (hw : w.HostRaisesOnly base P) : w'.HostRaisesOnly base P where
  settings index _ _ hp := hw.settings index (h.settings index ▸ hp)
  functions hrun := by
    rcases h.functions hrun with hold | ⟨c, hc⟩
    · exact hw.functions hold
    · cases hc

/-! ## Effects -/

namespace Effect

/-- Programs of the host that a state offers raise only failures of a kind. -/
structure HostRaisesOnly (base : World) (P : Failure → Prop) (s : Running) : Prop where
  /-- The world comes out of the base. -/
  evolves : base.Evolves s.world
  /-- The host raises only such failures. -/
  host : s.world.HostRaisesOnly base P

/-- An effect ends with no other failures than those of a kind, if the host raises no others, and
that is so afterwards. -/
def Raising (base : World) (P : Failure → Prop) : Verdict := fun s failure? t =>
  HostRaisesOnly base P s → HostRaisesOnly base P t ∧ ∀ failure, failure? = some failure → P failure

theorem raising_of_kept {s t : Running} (hworld : s.world.Evolves t.world)
    (hhost : s.world.SameHost t.world) : Raising base P s none t := fun hs =>
  ⟨⟨hs.evolves.trans hworld, hhost.hostRaisesOnly hs.host⟩, fun _ h => by cases h⟩

/-- What changes neither machines nor functions. -/
theorem raising_of_same {s t : Running} (hvms : t.world.vms = s.world.vms)
    (hfunctions : t.world.functions = s.world.functions) : Raising base P s none t :=
  raising_of_kept (.of_same hvms hfunctions) (.of_same hvms hfunctions)

/-- The basic effects on traversals raise no failures. -/
theorem looping_raising : Verdict.Looping (Raising base P) where
  setIterator _ _ _ := raising_of_same rfl rfl
  dropIterator _ _ := raising_of_same rfl rfl

/-- The other basic effects raise no other failures than the host, and faults. -/
theorem moving_raising (hP : Failure.Covers P) : Verdict.Moving (Raising base P) where
  refl s := raising_of_same rfl rfl
  trans h h' hs := h' (h hs).1
  fault s f hs := ⟨hs, fun _ h => by cases h; exact hP _ rfl⟩
  frame s f _ _ := raising_of_same rfl rfl
  moved s pc := raising_of_same rfl rfl
  heap s heap := raising_of_same rfl rfl
  perform s p hp hs := by
    have hhost := p.perform_keeps World.routine_sameHost.toHosted s.world
    refine ⟨⟨hs.evolves.trans (p.perform_evolves _), hhost.hostRaisesOnly hs.host⟩, ?_⟩
    intro failure hfails
    have hprogram := hs.host.settings _ hp
    cases hresult : (p.perform s.world).2 with
    | ok a =>
      rw [hresult] at hfails
      cases hfails
    | error failure' =>
      rw [hresult] at hfails
      cases hfails
      exact hprogram.perform hP hs.evolves hresult
  trace s line := raising_of_kept (steady_evolves.trace s line)
    (Running.steady_sameHost.trace s line).world
  writeCell id value s := raising_of_kept (steady_evolves.writeCell id value s)
    (Running.steady_sameHost.writeCell id value s).world
  closedCell value s := raising_of_same rfl rfl
  captureRegister slot s := raising_of_same rfl rfl
  closeFrom slot s := raising_of_same rfl rfl

/-- A closure that is made raises no failure. -/
theorem making_raising : Verdict.Making (Raising base P) where
  createClosure index upvalues s :=
    raising_of_kept (steady_evolves.createClosure index upvalues s)
      (Running.steady_sameHost.createClosure index upvalues s).world

theorem raising_countHit : Upholds (Raising base P) countHit := fun s =>
  raising_of_kept (steady_evolves.countHit s) (Running.steady_sameHost.countHit s).world

end Effect

/-! ## Steps -/

namespace Machine

variable {m : Machine} {s : Running} {failure : Failure}

theorem step_sameHost (m : Machine) : m.world.SameHost m.step.world :=
  ((move Running.steady_sameHost m).imp fun _ _ h => h.world).world World.routine_sameHost

/-- A frame ends with a failure that its instruction has raised, or because its call is one too
many, or because the results of a call do not fit, or because a call has failed that it has made. -/
theorem error_of_ending (h : m.ending? = some (s, .error failure)) :
    (∃ f i, m.dispatching? = some (f, i) ∧
        Effect.dispatch i ⟨m.world, f, m.stack⟩ = .error failure s) ∨
      (∃ next values t, t.world = m.world ∧ accept next values t = .error failure s) ∨
      m.control = .fail failure ∨ failure = .fault .stackOverflow := by
  unfold ending? at h
  cases hacting : m.acting? with
  | some r =>
    rw [hacting] at h
    obtain ⟨result, hends, heq⟩ := Option.map_eq_some_iff.1 h
    obtain ⟨rfl, rfl⟩ := Prod.mk.inj heq
    have hr : r = .error failure (Effect.stateOf r) := by
      rcases r with ⟨_ | values | _, t⟩ | ⟨failure', t⟩ <;> cases hends
      rfl
    obtain ⟨w, stack, control⟩ := m
    cases control with
    | run f =>
      unfold acting? at hacting
      dsimp only at hacting
      cases hi : nextInstruction? w f with
      | none =>
        rw [hi] at hacting
        cases hacting
        cases hends
      | some i =>
        rw [hi] at hacting
        refine .inl ⟨f, i, ?_, (Option.some.inj hacting).trans hr⟩
        unfold dispatching?
        simp only [hi, Option.map_some]
    | call function args => cases stack <;> cases hacting
    | give values =>
      rcases stack with _ | ⟨⟨f, next⟩ | resume, stack⟩
      · cases hacting
      · exact .inr (.inl ⟨next, values, ⟨w, f, stack⟩, rfl, (Option.some.inj hacting).trans hr⟩)
      · cases hacting
    | fail failure' =>
      rcases stack with _ | ⟨⟨f, next⟩ | resume, stack⟩
      · cases hacting
      · cases hacting
        cases hends
        exact .inr (.inr (.inl rfl))
      · cases hacting
  | none =>
    rw [hacting] at h
    cases hentering : m.entering? with
    | none =>
      rw [hentering] at h
      cases h
    | some entering =>
      obtain ⟨t, _ | _⟩ := entering <;> rw [hentering] at h <;> cases h
      exact .inr (.inr (.inr rfl))

/-- A run comes to a failure when a frame ends with one, or a program of the host. -/
theorem fail_of_step (h : m.step.control = .fail failure) :
    (∃ s failure', m.ending? = some (s, .error failure') ∧
        (handle s.world s.frame failure').2 = failure) ∨
      ∃ p, m.Resting p ∧ (p.settle m.world).2 = .fail failure := by
  cases hacting : m.acting? with
  | some r =>
    rw [step_of_acting hacting] at h
    rcases r with ⟨_ | values | ⟨function, args, next⟩, t⟩ | ⟨failure', t⟩
    · cases h
    · cases h
    · cases h
    · exact .inl ⟨t, failure', ending_of_acting hacting rfl, Control.fail.inj h⟩
  | none =>
    cases hentering : m.entering? with
    | some entering =>
      obtain ⟨t, overflows⟩ := entering
      rw [step_of_entering hentering] at h
      cases overflows with
      | true =>
        refine .inl ⟨t, .fault .stackOverflow, ?_, Control.fail.inj h⟩
        simp only [ending?, hacting, hentering]
      | false => cases h
    | none =>
      obtain ⟨p, hp, hstep⟩ := resting_spec hacting hentering
      rw [hstep] at h
      rcases hsettled : p.settle m.world with ⟨w, result | failure' | ⟨target, resume⟩⟩
      · rw [hsettled] at h
        cases h
      · rw [hsettled] at h
        cases h
        exact .inr ⟨p, hp, congrArg Prod.snd hsettled⟩
      · rw [hsettled] at h
        cases h

/-- The host of a run raises only failures of a kind, and the run hands on no others. -/
structure FailsOnly (m : Machine) (base : World) (P : Failure → Prop) : Prop where
  /-- The world comes out of the base. -/
  evolves : base.Evolves m.world
  /-- What the host has made raises only such failures. -/
  host : m.world.HostRaisesOnly base P
  /-- What waits does too, but for the failures that it is handed. -/
  stack : ∀ resume, .native resume ∈ m.stack → ∀ answer,
    (resume answer).RaisesOnly base fun failure => P failure ∨ answer = .error failure
  /-- The run hands on no other failures. -/
  control : ∀ failure, m.control = .fail failure → P failure

theorem Resting.raisesOnly {p : FunctionProgram} (hp : m.Resting p) (hP : Failure.Covers P)
    (hm : m.FailsOnly base P) : p.RaisesOnly base P := by
  cases hp with
  | begins _ hfunction => exact hm.host.functions hfunction _
  | @resumes resume rest answer hstack hhanded =>
    refine (hm.stack resume (hstack ▸ List.mem_cons_self) answer).mono fun failure hfailure => ?_
    rcases hfailure with hfailure | rfl
    · exact hfailure
    · apply hm.control
      unfold handed? at hhanded
      split at hhanded <;> cases hhanded
      assumption
  | gives values => trivial
  | faults f => exact hP _ rfl
  | failed hcontrol => exact hm.control _ hcontrol

/-- A frame ends with such a failure, if its instruction raises no other. -/
theorem FailsOnly.ending (hm : m.FailsOnly base P) (hP : Failure.Covers P)
    (hdispatch : ∀ f i t failure, m.dispatching? = some (f, i) →
      Effect.dispatch i ⟨m.world, f, m.stack⟩ = .error failure t → P failure)
    (h : m.ending? = some (s, .error failure)) : P failure := by
  rcases error_of_ending h with ⟨f, i, hi, hfails⟩ | ⟨next, values, t, hworld, hfails⟩ |
    hcontrol | rfl
  · exact hdispatch f i s failure hi hfails
  · have hmoving : Effect.Verdict.Moving (Effect.Raising base P) := Effect.moving_raising hP
    have haccepts := Effect.keeps_accept hmoving next values t
    unfold Effect.failure? at haccepts
    rw [hfails] at haccepts
    exact (haccepts ⟨hworld ▸ hm.evolves, hworld ▸ hm.host⟩).2 _ rfl
  · exact hm.control _ hcontrol
  · exact hP _ rfl

/-- Its panic hook raises no other either. -/
theorem FailsOnly.handle (hm : m.FailsOnly base P) (hP : Failure.Covers P)
    {result : Except Failure (List Value)} (h : m.ending? = some (s, result))
    (hfailure : P failure) : P (handle s.world s.frame failure).2 := by
  have hevolves : m.world.Evolves s.world :=
    (move Effect.steady_evolves m).world_of_ending routine_evolves h
  have hhost : m.world.SameHost s.world :=
    ((move Running.steady_sameHost m).imp fun _ _ h => h.world).world_of_ending
      World.routine_sameHost h
  rcases handle_failure s.world s.frame failure with ⟨heq, -⟩ | ⟨payload, heq⟩ |
    ⟨call, hcall, hfails⟩
  · rwa [heq]
  · rw [heq]
    exact hP _ rfl
  · obtain ⟨vm, hvm, hhook⟩ := hook_of_panicCallOf hcall
    have hoffers : (s.world.vms.getD s.frame.vm.index .empty).settings.Offers
        (call.hook call.message call.error call.context) := by
      unfold World.vm? at hvm
      rw [Array.getD_eq_getD_getElem?, hvm]
      exact .panic hhook _ _ _
    exact ((hhost.hostRaisesOnly hm.host).settings _ hoffers).perform hP
      (hm.evolves.trans hevolves) hfails

/-- So it is after a step. -/
theorem FailsOnly.step (hm : m.FailsOnly base P) (hP : Failure.Covers P)
    (hdispatch : ∀ f i t failure, m.dispatching? = some (f, i) →
      Effect.dispatch i ⟨m.world, f, m.stack⟩ = .error failure t → P failure) :
    m.step.FailsOnly base P where
  evolves := hm.evolves.trans (step_evolves m)
  host := (step_sameHost m).hostRaisesOnly hm.host
  stack resume hresume := by
    rcases native_of_step hresume with hstack | ⟨p, target, hp, hcall⟩
    · exact hm.stack resume hstack
    · have hsettled := (hp.raisesOnly hP hm).settle hP hm.evolves
      rwa [hcall] at hsettled
  control failure hfail := by
    rcases fail_of_step hfail with ⟨s, failure', hends, rfl⟩ | ⟨p, hp, hsettles⟩
    · exact hm.handle hP hends (hm.ending hP hdispatch hends)
    · have hsettled := (hp.raisesOnly hP hm).settle hP hm.evolves
      rwa [hsettles] at hsettled

end Machine

/-! ## The base library -/

namespace Library

variable (hP : Failure.Covers P)

include hP

theorem raisesOnly_tableArgument {κ : Type} (args : List Value) (i : Nat) (function : String) :
    (tableArgument (κ := κ) args i function).RaisesOnly base P := by
  unfold tableArgument
  split
  · trivial
  · exact hP _ rfl

theorem raisesOnly_numberArgument {κ : Type} (args : List Value) (i : Nat) (function : String) :
    (numberArgument (κ := κ) args i function).RaisesOnly base P := by
  unfold numberArgument
  split
  · trivial
  · exact hP _ rfl

theorem raisesOnly_type (args : List Value) : (type args).RaisesOnly base P := by
  unfold type
  split
  · exact hP _ rfl
  · trivial

theorem raisesOnly_tonumber (args : List Value) : (tonumber args).RaisesOnly base P := by
  unfold tonumber
  dsimp only
  split
  · trivial
  · refine (raisesOnly_numberArgument hP _ _ _).bind fun n => ?_
    split
    · split
      · split <;> trivial
      · exact hP _ rfl
    · exact hP _ rfl

theorem raisesOnly_assert (args : List Value) : (Library.assert args).RaisesOnly base P := by
  unfold Library.assert
  split
  · trivial
  · split <;> exact hP _ rfl

theorem raisesOnly_next (args : List Value) : (next args).RaisesOnly base P := by
  refine (raisesOnly_tableArgument hP _ _ _).bind fun t pair => ?_
  rcases pair with _ | ⟨key, value⟩ <;> trivial

theorem raisesOnly_pairs (f : Value) (args : List Value) : (pairs f args).RaisesOnly base P :=
  (raisesOnly_tableArgument hP _ _ _).bind fun _ => trivial

theorem raisesOnly_ipairsStep (args : List Value) : (ipairsStep args).RaisesOnly base P := by
  refine (raisesOnly_tableArgument hP _ _ _).bind fun t => ?_
  refine (raisesOnly_numberArgument hP _ _ _).bind fun n value => ?_
  dsimp only
  split <;> trivial

theorem raisesOnly_ipairs (f : Value) (args : List Value) : (ipairs f args).RaisesOnly base P :=
  (raisesOnly_tableArgument hP _ _ _).bind fun _ => trivial

theorem raisesOnly_select (args : List Value) : (select args).RaisesOnly base P := by
  unfold select
  dsimp only
  split
  · trivial
  · refine (raisesOnly_numberArgument hP _ _ _).bind fun n => ?_
    generalize (if Number.truncate n < 0 then _ else Number.truncate n) = position
    split
    · exact hP _ rfl
    · trivial

omit hP in
/-- A protected call hands on only what it does not handle. -/
theorem raisesOnly_pcall (args : List Value) : (pcall args).RaisesOnly base P := by
  intro answer
  rcases answer with failure | values
  · dsimp only
    split
    · trivial
    · exact .inr rfl
  · trivial

theorem raisesOnly_rawlen (args : List Value) : (rawlen args).RaisesOnly base P := by
  unfold rawlen
  split
  · trivial
  · exact (raisesOnly_tableArgument hP _ _ _).bind fun _ _ => trivial

end Library

namespace World

variable {w : World}

theorem HostRaisesOnly.createNative (hw : w.HostRaisesOnly base P) (name : String)
    {run : Library.Native} (hrun : ∀ args, (run args).RaisesOnly base P) :
    (w.createNative name run).2.HostRaisesOnly base P where
  settings := hw.settings
  functions {id name' run'} h := by
    have hpush : (w.functions.push (.native (.ofString name) run))[id.index]? =
      some (.native name' run') := h
    rw [Array.getElem?_push] at hpush
    split at hpush
    · cases hpush
      exact hrun
    · exact hw.functions hpush

theorem HostRaisesOnly.setField (hw : w.HostRaisesOnly base P) (t : TableId) (name : String)
    (value : Value) : (w.setField t name value).HostRaisesOnly base P := by
  have hsame : w.SameHost (w.setField t name value) := .of_same rfl rfl
  exact hsame.hostRaisesOnly hw

/-- The base library raises only failures that scripts may handle. -/
theorem HostRaisesOnly.openLibrary (hP : Failure.Covers P) (hw : w.HostRaisesOnly base P)
    (t : TableId) : (w.openLibrary t).HostRaisesOnly base P := by
  let install (w : World) (entry : String × Library.Native) : World :=
    (w.createNative entry.1 entry.2).2.setField t entry.1 (.function (w.createNative entry.1 entry.2).1)
  have hinstall : ∀ (entries : List (String × Library.Native)) (w : World),
      w.HostRaisesOnly base P → (∀ entry ∈ entries, ∀ args, (entry.2 args).RaisesOnly base P) →
        (entries.foldl install w).HostRaisesOnly base P := by
    intro entries
    induction entries with
    | nil => exact fun w hw _ => hw
    | cons entry entries ih =>
      intro w hw hentries
      obtain ⟨hentry, hentries⟩ := List.forall_mem_cons.1 hentries
      exact ih _ ((hw.createNative _ hentry).setField t _ _) hentries
  have hsteps := ((hw.createNative "next" (Library.raisesOnly_next hP)).createNative "ipairs_step"
    (Library.raisesOnly_ipairsStep hP))
  refine hinstall _ _ (.setField (hinstall _ _ hsteps ?_) t _ _) ?_
  · simp only [List.forall_mem_cons, List.not_mem_nil, false_imp_iff, implies_true, and_true]
    exact ⟨fun _ => trivial, Library.raisesOnly_type hP, fun _ => trivial,
      Library.raisesOnly_tonumber hP, fun _ => hP _ rfl, Library.raisesOnly_assert hP⟩
  · simp only [List.forall_mem_cons, List.not_mem_nil, false_imp_iff, implies_true, and_true]
    exact ⟨Library.raisesOnly_pairs hP _, Library.raisesOnly_ipairs hP _,
      Library.raisesOnly_select hP, Library.raisesOnly_pcall, fun _ => trivial,
      Library.raisesOnly_rawlen hP⟩

end World

end

end ScriptMachine
