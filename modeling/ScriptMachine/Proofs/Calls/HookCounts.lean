import ScriptMachine.Proofs.Calls.OpenArity
import ScriptMachine.Proofs.Flow.Interrupts
import ScriptMachine.Proofs.Machine.Commuting
import ScriptMachine.Proofs.Machine.Divergence
import ScriptMachine.Proofs.Machine.Sightings

/-!
# How often hooks are called for a method call

A look-up of a method offers the call that follows to a handler.  If the handler takes the call
over, the call does not run, and its hooks are called on its behalf; if it declines, they are called
when the call runs.  Settings say whether they are called on its behalf before the offer or once it
has been taken, and so whether a call that is declined has been seen before it runs.
-/

namespace ScriptMachine

/-! ## What the hooks of a call see -/

/-- What the step hook sees of a look-up of a method. -/
def lookSighting (prototype slot : Nat) : Sighting :=
  { kind := .step, prototype, slot, opcode := .namecall }

/-- What the step hook and the interrupt hook see of a call. -/
def callSightings (prototype slot : Nat) : List Sighting :=
  [{ kind := .step, prototype, slot, opcode := .call },
    { kind := .interrupt, prototype, slot, opcode := .call }]

theorem Frame.Grown.refl (f : Frame) : f.Grown f := ⟨rfl, le_rfl, fun _ => rfl⟩

namespace Effect

variable {s : Running} {i call : Instruction}
  {handler : Bytes → List Value → HookProgram (Option (List Value))}

/-! ## Parts of instructions -/

theorem shows_ensure (size : Nat) : (ensure size).Ends s fun _ t => s.Shows [] t := by
  intro _ t h
  rw [ensure_eq] at h
  split at h
  · rename_i f hf
    cases h
    exact .of_frame s (Frame.grown_ensure? hf).sameCall.vm
  · cases h

theorem shows_values (first count : Nat) : (values first count).Ends s fun _ t => s.Shows [] t := by
  refine (shows_ensure _).bind fun _ t ht => ?_
  intro _ u h
  cases h
  exact ht

theorem shows_storeResults (base wanted : Nat) (results : List Value) :
    (storeResults base wanted results).Ends s fun _ t => s.Shows [] t := by
  have hstore : ∀ (t : Running) (first : Nat) (values : List Value) (g : Frame), s.Shows [] t →
      g.vm = (t.frame.putAll first values).vm → s.Shows [] { t with frame := g } :=
    fun t first values g ht hg =>
      ht.trans (.of_frame t (hg.trans (t.frame.sameCall_putAll first values).vm))
  unfold storeResults
  by_cases hwanted : wanted = 0
  · rw [if_pos hwanted]
    refine (shows_ensure _).bind fun _ t ht => ?_
    intro _ u h
    cases h
    exact hstore t _ _ _ ht rfl
  · rw [if_neg hwanted]
    refine (shows_ensure _).bind fun _ t ht => ?_
    intro _ u h
    cases h
    exact hstore t _ _ _ ht rfl

theorem shows_trace (i : Instruction) : (trace i).Ends s fun _ t => s.Shows [] t := by
  intro _ t h
  unfold trace at h
  simp only [vm_bind, get_bind] at h
  split at h
  · cases h
    have hsame := s.world.sameSettings_modifyVm s.frame.vm
      (f := fun vm => { vm with traced := vm.traced + 1 }) fun _ => rfl
    exact ⟨rfl, rfl, hsame _, (List.append_nil _).symm⟩
  · cases h
    exact .refl s

/-- Before an operation that no breakpoint hides, the step hook is called. -/
theorem shows_prelude (h : s.settings.Watched s.frame.vm) (hopcode : i.opcode ≠ .breakpoint) :
    (prelude i).Ends s fun early t => early = none ∧ s.Shows (s.settings.hooks.seen
      [⟨.step, s.frame.prototype, s.frame.pc, i.opcode⟩]) t := by
  intro early t ht
  unfold prelude at ht
  rw [modifyFrame_bind] at ht
  obtain ⟨_, u, hu, ht⟩ := ok_of_bind ht
  obtain ⟨_, v, hv, ht⟩ := ok_of_bind ht
  rw [if_neg hopcode] at ht
  cases ht
  have hadvanced : s.Shows [] s.advanced := .of_frame s rfl
  have htraced := shows_trace i _ _ hu
  have hframe : u.frame = s.advanced.frame := ((aside_trace i).ends _ _ _ hu).frame
  have hbefore : s.Shows [] u := hadvanced.trans htraced
  have hwatched : u.settings.Watched u.frame.vm := by rwa [hbefore.settings, hbefore.vm]
  obtain ⟨-, hstep⟩ := shows_stepHook hwatched i.opcode _ _ hv
  refine ⟨rfl, ?_⟩
  have hshown := hbefore.trans hstep
  rw [hbefore.settings, hframe] at hshown
  exact hshown

/-- The hooks of the call that follows see it at its own slot. -/
theorem shows_callHooks (h : s.settings.Watched s.frame.vm) :
    callHooks.Ends s fun _ t => t.frame = s.frame ∧
      s.Shows (s.settings.hooks.seen (callSightings s.frame.prototype s.frame.pc)) t := by
  intro _ t ht
  let ahead : Running := { s with frame := { s.frame with current := s.frame.pc } }
  unfold callHooks at ht
  rw [get_bind, modifyFrame_bind] at ht
  obtain ⟨_, u, hu, ht⟩ := ok_of_bind ht
  obtain ⟨_, v, hv, ht⟩ := ok_of_bind ht
  cases ht
  have hahead : s.Shows [] ahead := .of_frame s rfl
  obtain ⟨huframe, hstep⟩ := shows_stepHook (s := ahead) h .call _ _ hu
  have hwatched : u.settings.Watched u.frame.vm := by
    rw [hstep.settings, hstep.vm]
    exact h
  obtain ⟨hvframe, hinterrupt⟩ := shows_interrupt hwatched .call _ _ hv
  rw [hstep.settings, huframe] at hinterrupt
  rw [huframe] at hvframe
  have hback : v.Shows [] { v with frame := { v.frame with current := s.frame.current } } :=
    .of_frame v rfl
  refine ⟨?_, ?_⟩
  · show { v.frame with current := s.frame.current } = s.frame
    rw [hvframe]
  · have hshown := ((hahead.trans hstep).trans hinterrupt).trans hback
    rw [List.append_nil] at hshown
    exact (s.settings.hooks.seen_append [_] [_]).symm ▸ hshown

/-- A call calls the interrupt hook. -/
theorem shows_call (h : s.settings.Watched s.frame.vm) (i : Instruction) :
    (Effect.call i).Ends s fun _ t => s.Shows (s.settings.hooks.seen
      [⟨.interrupt, s.frame.prototype, s.frame.current, .call⟩]) t := by
  refine (shows_interrupt h .call).bind fun _ t ht => ?_
  have hcount : (countFrom (i.operands.a + 1) i.operands.b).Ends t fun _ u => u = t := by
    intro _ u hu
    cases hu
    rfl
  refine hcount.bind fun count u hu => ?_
  subst hu
  refine (shows_values _ _).bind fun args v hv => ?_
  intro outcome w hw
  cases hw
  have hshown := ht.2.trans hv
  rw [List.append_nil] at hshown
  exact hshown

theorem ends_getField (object key : Value) : (getField object key).Ends s fun _ t => t = s := by
  have hsame : ∀ value : Value, (pure value : Effect Value).Ends s fun _ t => t = s :=
    fun value => ends_pure rfl
  refine Ends.bind (P := fun _ t => t = s) (fun _ t ht => by cases ht; rfl) fun settings t ht => ?_
  subst ht
  split
  · exact hsame _
  · exact hsame _
  · split
    · exact hsame _
    · exact ends_fault
  · exact ends_fault

/-! ## Offers -/

/-- Calls the hooks of the call that follows, if it is the time to do so. -/
def callHooksIf (now : Bool) : Effect Unit := if now then callHooks else pure ()

theorem shows_callHooksIf (h : s.settings.Watched s.frame.vm) (now : Bool) :
    (callHooksIf now).Ends s fun _ t => t.frame = s.frame ∧ s.Shows (s.settings.hooks.seen
      (if now then callSightings s.frame.prototype s.frame.pc else [])) t := by
  cases now with
  | false => exact ends_pure ⟨rfl, .refl s⟩
  | true => exact shows_callHooks h

/-- Asks the handler of method calls to take a call over; the hooks of the call may come before. -/
def ask (reinvokes : Bool) (handler : Bytes → List Value → HookProgram (Option (List Value)))
    (method : Value) (call : Instruction) : Effect (Option (List Value)) := do
  callHooksIf reinvokes
  let args ← values (call.operands.a + 1) (← countFrom (call.operands.a + 1) call.operands.b)
  perform (handler method.toText args)

/-- Passes over a call that the host has taken over, and stores its results; the hooks of the call
may come before. -/
def take (reinvokes : Bool) (call : Instruction) (results : List Value) : Effect Unit := do
  callHooksIf !reinvokes
  modifyFrame fun f => { f with current := f.pc, pc := f.pc + 1 }
  storeResults call.operands.a call.operands.c results

theorem offerNamecall_of_offered (hhandler : s.settings.namecallHandler = some handler)
    (hcall : offeredCall? s = .ok (some call) s) (method : Value) :
    offerNamecall method s = (do
      match ← ask s.settings.namecallReinvokesHooks handler method call with
      | some results =>
        take s.settings.namecallReinvokesHooks call results
        return true
      | none => return false : Effect Bool) s := by
  have hsame : s.vm.settings = s.settings := rfl
  unfold offerNamecall ask take callHooksIf
  rw [settings_bind, bind_of_ok hcall, hsame, hhandler]
  cases s.settings.namecallReinvokesHooks
  · simp only [Bool.false_eq_true, if_false, Bool.not_false, if_true, bind_assoc]
    refine congrFun (bind_congr fun count => bind_congr fun args => bind_congr fun answer => ?_) s
    cases answer <;> rfl
  · simp only [Bool.not_true, Bool.false_eq_true, if_false, if_true, bind_assoc]
    refine congrFun (bind_congr fun _ => bind_congr fun count => bind_congr fun args =>
      bind_congr fun answer => ?_) s
    cases answer <;> rfl

/-- A look-up that offers its call asks the handler.  If that takes the call over, then there is
nothing to look up. -/
theorem namecall_of_offered (hhandler : s.settings.namecallHandler = some handler)
    (hcall : offeredCall? (lookedUp i s) = .ok (some call) (lookedUp i s)) :
    namecall i s = (do
      match ← ask s.settings.namecallReinvokesHooks handler i.constant.value call with
      | some results => take s.settings.namecallReinvokesHooks call results
      | none => put i.operands.a (← getField (s.frame.register i.operands.b) i.constant.value) :
        Effect Unit) (lookedUp i s) := by
  unfold namecall
  rw [register_bind, put_bind, jump_bind]
  refine (bind_of_eq (offerNamecall_of_offered (s := lookedUp i s) hhandler hcall _) _).trans ?_
  rw [bind_assoc]
  refine congrFun (bind_congr fun answer => ?_) (lookedUp i s)
  have hsame : (lookedUp i s).settings = s.settings := rfl
  cases answer with
  | none => simp
  | some results => simp [hsame]

/-- The hooks of the call are called before the handler is asked, or not yet. -/
theorem ends_ask (h : s.settings.Watched s.frame.vm)
    (hhandler : s.settings.namecallHandler = some handler) (reinvokes : Bool) (method : Value)
    (call : Instruction) :
    (ask reinvokes handler method call).Ends s fun _ t => s.frame.Grown t.frame ∧
      s.Shows (s.settings.hooks.seen
        (if reinvokes then callSightings s.frame.prototype s.frame.pc else [])) t := by
  intro answer w hw
  obtain ⟨_, t, ht, hw⟩ := ok_of_bind hw
  obtain ⟨count, t', hcount, hw⟩ := ok_of_bind hw
  cases hcount
  obtain ⟨args, u, hu, hw⟩ := ok_of_bind hw
  obtain ⟨hframe, hshows⟩ := shows_callHooksIf h _ _ _ ht
  have hroomy := shows_values _ _ _ _ hu
  have hall := hshows.trans hroomy
  have htells : (handler method.toText args).Tells u.frame.vm [] := by
    rw [hall.vm]
    exact h.handler handler hhandler _ _
  obtain ⟨hsame, hanswer⟩ := shows_perform htells _ _ hw
  refine ⟨?_, ?_⟩
  · rw [hsame, ← hframe]
    exact ends_values _ _ _ _ hu
  · have hshown := hall.trans hanswer
    rwa [List.append_nil, List.append_nil] at hshown

/-- The frame of a call that is taken over goes on as it does after a call.  The hooks of the call
are called now, if they have not been called before. -/
theorem ends_take (h : s.settings.Watched s.frame.vm) (reinvokes : Bool) (call : Instruction)
    (results : List Value) :
    (take reinvokes call results).Ends s fun _ t =>
      s.frame.Returned call.operands.a call.operands.c results t.frame ∧
      s.Shows (s.settings.hooks.seen
        (if !reinvokes then callSightings s.frame.prototype s.frame.pc else [])) t := by
  intro _ u hu
  obtain ⟨_, t, ht, hu⟩ := ok_of_bind hu
  rw [modifyFrame_bind] at hu
  obtain ⟨hframe, hshows⟩ := shows_callHooksIf h _ _ _ ht
  have hpassed : t.Shows [] { t with frame :=
      { t.frame with current := t.frame.pc, pc := t.frame.pc + 1 } } := .of_frame t rfl
  refine ⟨?_, ?_⟩
  · obtain ⟨roomy, hroomy, hroom, hstored⟩ := ends_storeResults _ _ _ _ _ hu
    rw [hstored, ← hframe]
    exact Frame.returned_of_stored (.refl _) (.refl _) hroomy hroom
  · have hshown := (hshows.trans hpassed).trans (shows_storeResults _ _ _ _ _ hu)
    rwa [List.append_nil, List.append_nil] at hshown

end Effect

/-! ## Code without breakpoints -/

/-- There is no breakpoint at a slot of a machine. -/
def World.Clear (w : World) (id : VmId) (index slot : Nat) : Prop :=
  ∀ vm ∈ w.vm? id, ∀ i ∈ (vm.prototype index).instruction? slot, i.opcode ≠ .breakpoint

instance (w : World) (id : VmId) (index slot : Nat) : Decidable (w.Clear id index slot) :=
  inferInstanceAs (Decidable (∀ vm ∈ w.vm? id, ∀ i ∈ (vm.prototype index).instruction? slot,
    i.opcode ≠ .breakpoint))

/-- Where there is no breakpoint, the operation is the one that was loaded. -/
theorem World.Clear.instruction {w : World} {id : VmId} {vm : Vm} {n : Module} {index slot : Nat}
    {j : Instruction} (h : w.Clear id index slot) (hw : w.Runs id n) (hvm : w.vm? id = some vm)
    (hj : (n.prototype index).code[slot]? = some (.instruction j)) :
    ∃ i, (vm.prototype index).code[slot]? = some (.instruction i) ∧ i.VersionOf j ∧
      i.opcode = j.underlying := by
  obtain ⟨vm', hvm', hversion⟩ := hw
  cases hvm.symm.trans hvm'
  rcases rel_cases (hversion.prototype index slot) with ⟨-, hnone⟩ | ⟨x, y, hx, hy, hxy⟩
  · rw [hj] at hnone
    cases hnone
  · rw [hj] at hy
    cases hy
    cases hxy with
    | @instruction i _ hij =>
      have hown := h vm hvm i (Prototype.instruction?_eq_some_iff.2 hx)
      exact ⟨i, hx, hij, hij.opcode.resolve_left hown⟩

/-! ## Calls that are offered -/

/-- A frame has passed over a call behind its look-up: the results are where the call wants them. -/
structure Frame.GoesOn (f : Frame) (call : Instruction) (results : List Value) (g : Frame) :
    Prop where
  /-- It is the same frame. -/
  same : f.SameCall g
  /-- It stands at the slot behind the call, which is behind the two slots of the look-up. -/
  pc : g.pc = f.pc + 3
  /-- There are registers for the results that the call wants. -/
  room : call.operands.a + (resultWindow call.operands.c results).length ≤ g.registers.size
  /-- They hold the results. -/
  window : g.slice call.operands.a (resultWindow call.operands.c results).length =
    resultWindow call.operands.c results
  /-- The last result is at the top when all results are wanted. -/
  top : call.operands.c = 0 → g.top = (call.operands.a : Int) + results.length - 1

theorem Frame.Returned.goesOn {f g h : Frame} {call : Instruction} {results : List Value}
    (hreturned : g.Returned call.operands.a call.operands.c results h) (hfg : f.SameCall g)
    (hpc : g.pc = f.pc + 2) : f.GoesOn call results h where
  same := hfg.trans hreturned.call
  pc := by rw [hreturned.pc, hpc]
  room := hreturned.room
  window := hreturned.window
  top hall := by rw [hreturned.top, if_pos hall]

namespace Machine

variable {m : Machine} {n : Module} {f g : Frame} {j look call : Instruction} {settings : Settings}
  {results : List Value}

/-- The next step raises no failure. -/
def Proceeds (m : Machine) : Prop := ∀ failure, m.step.control ≠ .fail failure

theorem Proceeds.ok {r : EStateM.Result Failure Running Outcome} (h : m.Proceeds)
    (hacting : m.acting? = some r) : ∃ outcome t, r = .ok outcome t := by
  cases r with
  | ok outcome t => exact ⟨outcome, t, rfl⟩
  | error failure t =>
    refine absurd ?_ (h (handle t.world t.frame failure).2)
    rw [step_of_acting hacting]
    rfl

/-! ## One instruction -/

/-- A frame is about to run an instruction of its module, and no failure comes of it.  The calls of
its machine's hooks are recorded. -/
structure RunsNext (m : Machine) (n : Module) (f : Frame) (j : Instruction) (settings : Settings) :
    Prop where
  /-- The frame executes. -/
  run : m.control = .run f
  /-- Its machine is alive and has these settings. -/
  machine : ∃ vm, m.world.vm? f.vm = some vm ∧ vm.alive = true ∧ vm.settings = settings
  /-- It runs the module. -/
  runs : m.world.Runs f.vm n
  /-- The instruction is at the slot of the frame. -/
  slot : (n.prototype f.prototype).code[f.pc]? = some (.instruction j)
  /-- There is no breakpoint. -/
  clear : m.world.Clear f.vm f.prototype f.pc
  /-- The calls of hooks are recorded. -/
  watched : settings.Watched f.vm
  /-- Neither the host nor the instruction raises a failure. -/
  proceeds : m.Proceeds

/-- The instruction comes to execute once the step hook has been called. -/
theorem RunsNext.executing (h : m.RunsNext n f j settings) (hj : j.underlying ≠ .breakpoint) :
    ∃ i s outcome t, m.executing? = some (i, s) ∧ i.VersionOf j ∧
      Effect.Aside (Running.advanced ⟨m.world, f, m.stack⟩) s ∧
      Running.Shows (settings.hooks.seen [⟨.step, f.prototype, f.pc, j.underlying⟩])
        ⟨m.world, f, m.stack⟩ s ∧ s.settings = settings ∧
      Effect.execute j.underlying i s = .ok outcome t ∧ m.step = ofOutcome (.ok outcome t) := by
  obtain ⟨vm, hvm, halive, rfl⟩ := h.machine
  obtain ⟨i, hi, hversion, hopcode⟩ := h.clear.instruction h.runs hvm h.slot
  have hdispatching : m.dispatching? = some (f, i) := by
    simp [dispatching?, h.run, nextInstruction?, hvm, halive, hi, Slot.asInstruction]
  have hsettings : Running.settings ⟨m.world, f, m.stack⟩ = vm.settings :=
    congrArg Vm.settings (World.vm_of_vm? hvm)
  have hacting := acting_of_dispatching hdispatching
  obtain ⟨outcome, t, ht⟩ := h.proceeds.ok hacting
  rw [ht] at hacting
  rw [Effect.dispatch_eq] at ht
  obtain ⟨early, s, hprelude, hbody⟩ := Effect.ok_of_bind ht
  obtain ⟨rfl, hshows⟩ := Effect.shows_prelude (s := ⟨m.world, f, m.stack⟩)
    (hsettings.symm ▸ h.watched) (hopcode ▸ hj) _ _ hprelude
  rw [hsettings, hopcode] at hshows
  refine ⟨i, s, outcome, t, executing_of_prelude hdispatching hprelude, hversion,
    Effect.ends_prelude i _ _ hprelude, hshows, hshows.settings.trans hsettings, ?_,
    step_of_acting hacting⟩
  rw [← hversion.underlying, ← hversion.operation]
  exact hbody

/-- A call lets its frame wait, once both hooks have been called. -/
theorem RunsNext.waits (h : m.RunsNext n f j settings) (hj : j.underlying = .call) :
    ∃ before function args, m.step.control = .call function args ∧
      Frame.Grown { f with current := f.pc, pc := f.pc + 1 } before ∧
      m.step.stack = .frame before (.results j.operands.a j.operands.c) :: m.stack ∧
      m.step.world.sightings f.vm = m.world.sightings f.vm ++
        settings.hooks.seen (callSightings f.prototype f.pc) := by
  obtain ⟨i, s, outcome, t, -, hversion, haside, hshows, hsettings, hexecute, hstep⟩ :=
    h.executing (by simp [hj])
  rw [hj] at hshows hexecute
  obtain ⟨hgrown, function, args, rfl⟩ := Effect.ends_call i outcome t hexecute
  have hwatched : s.settings.Watched s.frame.vm := by
    rw [hsettings, hshows.vm]
    exact h.watched
  have hcalled := hshows.trans (Effect.shows_call hwatched i _ _ hexecute)
  have hframe : s.frame = { f with current := f.pc, pc := f.pc + 1 } := haside.frame
  have hstack : t.stack = m.stack := hcalled.stack
  rw [hsettings, hframe, ← Hooks.seen_append] at hcalled
  refine ⟨t.frame, function, args, ?_, hframe ▸ hgrown, ?_, ?_⟩
  · rw [hstep]
    rfl
  · rw [hstep, ← hversion.operands, ← hstack]
    rfl
  · rw [hstep]
    exact hcalled.sightings

/-- A frame that waits for a call and is given results goes on with them. -/
theorem run_of_over {before : Frame} {stack : Stack} {base wanted : Nat} {results : List Value}
    (hbefore : Frame.Grown { g with current := g.pc, pc := g.pc + 1 } before)
    (hover : m.Over (.frame before (.results base wanted) :: stack))
    (hgive : m.control = .give results) (hproceeds : m.Proceeds) :
    ∃ k, m.step.control = .run k ∧ g.Returned base wanted results k ∧
      m.step.world.sightings g.vm = m.world.sightings g.vm := by
  obtain ⟨hkept, -⟩ := hover
  obtain ⟨waiting, rest, hwaiting, -, hstack⟩ := List.forall₂_cons_left_iff.1 hkept
  obtain ⟨w, stack, control⟩ := m
  cases hgive
  subst hstack
  cases hwaiting with
  | @frame _ waited _ hwaited =>
    have hacting : acting? ⟨w, .frame waited (.results base wanted) :: rest, .give results⟩ =
        some (accept (.results base wanted) results ⟨w, waited, rest⟩) := rfl
    obtain ⟨outcome, t, ht⟩ := hproceeds.ok hacting
    obtain rfl := ends_accept _ _ _ outcome t ht
    rw [ht] at hacting
    obtain ⟨_, u, hstore, hu⟩ := Effect.ok_of_bind ht
    cases hu
    obtain ⟨roomy, hroomy, hroom, hframe⟩ := Effect.ends_storeResults _ _ _ _ _ hstore
    have hshows := (Effect.shows_storeResults _ _ _ _ _ hstore).sightings
    rw [step_of_acting hacting]
    refine ⟨t.frame, rfl, ?_, ?_⟩
    · rw [hframe]
      exact Frame.returned_of_stored hbefore hwaited hroomy hroom
    · rw [List.append_nil] at hshows
      have hvm : waited.vm = g.vm := by rw [hwaited.vm, hbefore.frame]
      rw [← hvm]
      exact hshows

/-! ## Look-ups -/

/-- In the next step a method call is offered to the handler, which gives an answer: results, or
none when it declines. -/
def Answers (m : Machine) (answer : Option (List Value)) : Prop :=
  ∃ i s handler call t, m.executing? = some (i, s) ∧
    s.settings.namecallHandler = some handler ∧
    Effect.offeredCall? (Effect.lookedUp i s) = .ok (some call) (Effect.lookedUp i s) ∧
    Effect.ask s.settings.namecallReinvokesHooks handler i.constant.value call
      (Effect.lookedUp i s) = .ok answer t

/-- A frame is about to look up a method, which a call follows, and there is a handler to which the
call is offered. -/
structure LooksUp (m : Machine) (n : Module) (f : Frame) (look call : Instruction)
    (settings : Settings) : Prop extends m.RunsNext n f look settings where
  /-- It is a look-up that the frame runs next. -/
  looks : look.underlying = .namecall
  /-- Behind its two slots there is an instruction. -/
  behind : (n.prototype f.prototype).code[f.pc + 2]? = some (.instruction call)
  /-- That is a call. -/
  calls : call.underlying = .call
  /-- When the look-up comes to execute, there is no breakpoint there. -/
  clearBehind : ∀ i s, m.executing? = some (i, s) → s.world.Clear f.vm f.prototype (f.pc + 2)
  /-- Method calls are offered to the host. -/
  native : settings.useNativeNamecall = true
  /-- It has a handler for them. -/
  handler : settings.namecallHandler.isSome = true

/-- The host has taken the call over, and the frame goes on with the results that it has given.
Each hook has been called for the call just once. -/
structure TakesOver (m : Machine) (f : Frame) (call : Instruction) (settings : Settings)
    (results : List Value) : Prop where
  /-- The frame goes on behind the call. -/
  run : ∃ g, m.step.control = .run g ∧ f.GoesOn call results g
  /-- What waits for it goes on waiting. -/
  stack : m.step.stack = m.stack
  /-- The step hook has seen the look-up and the call, and the interrupt hook the call. -/
  sightings : m.step.world.sightings f.vm = m.world.sightings f.vm ++ settings.hooks.seen
    (lookSighting f.prototype f.pc :: callSightings f.prototype (f.pc + 2))

/-- Nothing keeps a frame from running the call behind its look-up. -/
structure Unhindered (m : Machine) (f : Frame) : Prop where
  /-- Its machine is still alive. -/
  alive : ∃ vm, m.world.vm? f.vm = some vm ∧ vm.alive = true
  /-- There is no breakpoint at the call. -/
  clear : m.world.Clear f.vm f.prototype (f.pc + 2)
  /-- Neither the hooks nor the call raise a failure. -/
  proceeds : m.Proceeds

/-- The host has declined, and the frame goes on to the call.  The hooks may have been called for it
already; they are called when it runs. -/
structure LeavesCall (m : Machine) (f : Frame) (call : Instruction) (settings : Settings) :
    Prop where
  /-- The frame goes on at the call. -/
  run : ∃ g, m.step.control = .run g ∧ f.SameCall g ∧ g.pc = f.pc + 2
  /-- What waits for it goes on waiting. -/
  stack : m.step.stack = m.stack
  /-- The step hook has seen the look-up.  When the hooks of the call come before the offer, both
  hooks have seen the call. -/
  sightings : m.step.world.sightings f.vm = m.world.sightings f.vm ++ settings.hooks.seen
    (lookSighting f.prototype f.pc ::
      if settings.namecallReinvokesHooks then callSightings f.prototype (f.pc + 2) else [])
  /-- If the call runs, then it begins, and both hooks see it. -/
  called : m.step.Unhindered f → ∃ before function args,
    m.step.step.control = .call function args ∧
    m.step.step.stack = .frame before (.results call.operands.a call.operands.c) :: m.stack ∧
    m.step.step.world.sightings f.vm = m.step.world.sightings f.vm ++
      settings.hooks.seen (callSightings f.prototype (f.pc + 2))
  /-- When it is over, the frame goes on with the results that it has given, and no hook is called
  for that. -/
  returned : m.step.Unhindered f → ∀ k results,
    (step^[k] m.step.step).Over m.step.step.stack →
    (step^[k] m.step.step).control = .give results → (step^[k] m.step.step).Proceeds →
    (∃ g, (step^[k + 1] m.step.step).control = .run g ∧ f.GoesOn call results g) ∧
      (step^[k + 1] m.step.step).world.sightings f.vm = (step^[k] m.step.step).world.sightings f.vm

/-- The call behind a look-up is offered to the handler. -/
theorem LooksUp.offers (hn : n.Loaded) (h : m.LooksUp n f look call settings) {i : Instruction}
    {s : Running} (hi : m.executing? = some (i, s))
    (haside : Effect.Aside (Running.advanced ⟨m.world, f, m.stack⟩) s)
    (hsettings : s.settings = settings) :
    (Effect.lookedUp i s).frame.pc = f.pc + 2 ∧
      ∃ c, Effect.offeredCall? (Effect.lookedUp i s) = .ok (some c) (Effect.lookedUp i s) ∧
        c.operands = call.operands := by
  have hpc : (Effect.lookedUp i s).frame.pc = f.pc + 2 := by
    have hlt := (Array.getElem?_eq_some_iff.1 h.behind).1
    have hsize := hn.size_lt _ (Module.mem_of_code h.behind)
    show Frame.displace s.frame.pc 1 = f.pc + 2
    rw [haside.frame]
    show Frame.displace (f.pc + 1) 1 = f.pc + 2
    unfold Frame.displace
    omega
  have hframe : s.frame = { f with current := f.pc, pc := f.pc + 1 } := haside.frame
  obtain ⟨vm, hvm, -⟩ := haside.evolves.runs h.runs
  obtain ⟨c, hc, hversion, hopcode⟩ :=
    (h.clearBehind i s hi).instruction (haside.evolves.runs h.runs) hvm h.behind
  refine ⟨hpc, c, ?_, hversion.operands⟩
  have hsame : (Effect.lookedUp i s).vm = vm :=
    World.vm_of_vm? (s := Effect.lookedUp i s) (show s.world.vm? s.frame.vm = _ by rw [hframe, hvm])
  have hslot : (Effect.lookedUp i s).prototype.code[(Effect.lookedUp i s).frame.pc]?.map
      Slot.asInstruction = some c := by
    rw [hpc]
    show ((Effect.lookedUp i s).vm.prototype s.frame.prototype).code[f.pc + 2]?.map _ = _
    rw [hsame, hframe, hc]
    rfl
  have hnative : (Effect.lookedUp i s).vm.settings.useNativeNamecall = true := by
    show s.settings.useNativeNamecall = true
    rw [hsettings]
    exact h.native
  rw [Effect.offeredCall?_eq hnative hslot, if_pos (hopcode.trans h.calls)]

/-- When the handler has answered, the hooks of the call have been called if they come before the
offer.  Then the call is taken over, or a method is put into a register. -/
theorem LooksUp.asks (hn : n.Loaded) (h : m.LooksUp n f look call settings) :
    ∃ answer v u, m.Answers answer ∧ f.SameCall v.frame ∧ v.frame.pc = f.pc + 2 ∧
      Running.Shows (settings.hooks.seen (lookSighting f.prototype f.pc ::
        if settings.namecallReinvokesHooks then callSightings f.prototype (f.pc + 2) else []))
        ⟨m.world, f, m.stack⟩ v ∧ v.settings = settings ∧ m.step = ofOutcome (.ok .next u) ∧
      match answer with
      | some results => ∃ c, c.operands = call.operands ∧
        Effect.take settings.namecallReinvokesHooks c results v = .ok () u
      | none => ∃ k method, u = { v with frame := v.frame.put k method } := by
  obtain ⟨i, s, outcome, t, hi, hversion, haside, hshows, hsettings, hexecute, hstep⟩ :=
    h.executing (by simp [h.looks])
  obtain ⟨hpc, c, hc, hoperands⟩ := h.offers hn hi haside hsettings
  obtain ⟨handler, hhandler⟩ := Option.isSome_iff_exists.1 h.handler
  rw [← hsettings] at hhandler
  rw [h.looks] at hshows hexecute
  have hframe : s.frame = { f with current := f.pc, pc := f.pc + 1 } := haside.frame
  -- the look-up goes on with the answer of the handler
  obtain ⟨_, u, hu, hlast⟩ := Effect.ok_of_bind (x := Effect.namecall i) hexecute
  cases hlast
  rw [Effect.namecall_of_offered hhandler hc] at hu
  obtain ⟨answer, v, hask, hrest⟩ := Effect.ok_of_bind hu
  have hwatched : (Effect.lookedUp i s).settings.Watched (Effect.lookedUp i s).frame.vm := by
    show s.settings.Watched s.frame.vm
    rw [hsettings, hframe]
    exact h.watched
  obtain ⟨hgrown, hasked⟩ := Effect.ends_ask hwatched hhandler _ _ _ _ _ hask
  have hlooked : s.Shows [] (Effect.lookedUp i s) := .of_frame s rfl
  have hsame : f.SameCall (Effect.lookedUp i s).frame := by
    have hmoved : f.SameCall s.frame := hframe ▸ f.sameCall_moved _ _ _
    exact (hmoved.trans (s.frame.sameCall_put _ _)).trans (Frame.sameCall_moved _ _ _ _)
  have hkept : (Effect.lookedUp i s).settings = settings := hsettings
  have hshown := (hshows.trans hlooked).trans hasked
  rw [hpc, hsame.prototype, hkept, hsettings, List.append_nil, ← Hooks.seen_append] at hshown
  refine ⟨answer, v, t, ⟨i, s, handler, c, v, hi, hhandler, hc, hask⟩, hsame.trans hgrown.sameCall,
    hgrown.pc.trans hpc, hshown, hasked.settings.trans hkept, hstep, ?_⟩
  cases answer with
  | none =>
    obtain ⟨method, w, hfetch, hput⟩ := Effect.ok_of_bind hrest
    obtain rfl := Effect.ends_getField _ _ _ _ hfetch
    cases hput
    exact ⟨i.operands.a, method, rfl⟩
  | some results => exact ⟨c, hoperands, hsettings ▸ hrest⟩

/-- What is done with the answer of the handler. -/
theorem LooksUp.answered (hn : n.Loaded) (h : m.LooksUp n f look call settings) :
    ∃ answer, m.Answers answer ∧ m.step.stack = m.stack ∧ ∃ g, m.step.control = .run g ∧
      f.SameCall g ∧ match answer with
      | some results => f.GoesOn call results g ∧
        m.step.world.sightings f.vm = m.world.sightings f.vm ++ settings.hooks.seen
          (lookSighting f.prototype f.pc :: callSightings f.prototype (f.pc + 2))
      | none => g.pc = f.pc + 2 ∧
        m.step.world.sightings f.vm = m.world.sightings f.vm ++ settings.hooks.seen
          (lookSighting f.prototype f.pc :: if settings.namecallReinvokesHooks then
            callSightings f.prototype (f.pc + 2) else []) := by
  obtain ⟨answer, v, u, hanswer, hsame, hpc, hshown, hsettings, hstep, hrest⟩ := h.asks hn
  refine ⟨answer, hanswer, ?_⟩
  rw [hstep]
  cases answer with
  | none =>
    obtain ⟨k, method, rfl⟩ := hrest
    exact ⟨hshown.stack, _, rfl, hsame.trans (v.frame.sameCall_put _ _), hpc, hshown.sightings⟩
  | some results =>
    obtain ⟨c, hoperands, htake⟩ := hrest
    have hwatched : v.settings.Watched v.frame.vm := by
      rw [hsettings, hsame.vm]
      exact h.watched
    obtain ⟨hreturned, htaken⟩ := Effect.ends_take hwatched _ _ _ _ _ htake
    rw [hoperands] at hreturned
    have hgoesOn := hreturned.goesOn hsame hpc
    have hall := hshown.trans htaken
    rw [hsettings, hpc, hsame.prototype, ← Hooks.seen_append] at hall
    refine ⟨hall.stack, _, rfl, hgoesOn.same, hgoesOn, hall.sightings.trans ?_⟩
    -- the hooks of the call come either before the answer or after it
    cases settings.namecallReinvokesHooks <;> rfl

/-- When the host has declined, the call that follows runs as any other call. -/
theorem LooksUp.runsNext (h : m.LooksUp n f look call settings) (hrun : m.step.control = .run g)
    (hsame : f.SameCall g) (hpc : g.pc = f.pc + 2) (hfree : m.step.Unhindered f) :
    m.step.RunsNext n g call settings where
  run := hrun
  machine := by
    obtain ⟨vm, hvm, halive, rfl⟩ := h.machine
    obtain ⟨vm', hvm', hevolves⟩ := (step_evolves m).machine hvm
    obtain ⟨vm'', hvm'', halive'⟩ := hfree.alive
    cases hvm'.symm.trans hvm''
    exact ⟨vm', hsame.vm ▸ hvm', halive', hevolves.settings⟩
  runs := by
    rw [hsame.vm]
    exact (step_evolves m).runs h.runs
  slot := by
    rw [hsame.prototype, hpc]
    exact h.behind
  clear := by
    rw [hsame.vm, hsame.prototype, hpc]
    exact hfree.clear
  watched := by
    rw [hsame.vm]
    exact h.watched
  proceeds := hfree.proceeds

/-- How often the hooks of a call are called that is offered to the host.  If the host takes it
over, then the step hook sees the look-up and the call, and the interrupt hook sees the call.  If it
declines, then they see the same when the call runs; when the hooks of the call come before the
offer, they have seen the call once before.  In both cases the frame goes on behind the call, with
the results where the call wants them. -/
theorem hook_counts_of_namecall {options : LoadOptions} {bytes : Bytes} {heap heap' : Heap}
    (hload : options.load bytes heap = .ok (n, heap')) (h : m.LooksUp n f look call settings) :
    ∃ answer, m.Answers answer ∧
      (∀ results, answer = some results → m.TakesOver f call settings results) ∧
      (answer = none → m.LeavesCall f call settings) := by
  obtain ⟨answer, hanswer, hstack, g, hrun, hsame, hcase⟩ :=
    h.answered (LoadOptions.loaded_of_load hload)
  refine ⟨answer, hanswer, ?_, ?_⟩
  · rintro results rfl
    exact ⟨⟨g, hrun, hcase.1⟩, hstack, hcase.2⟩
  · rintro rfl
    obtain ⟨hpc, hsightings⟩ := hcase
    refine ⟨⟨g, hrun, hsame, hpc⟩, hstack, hsightings, fun hfree => ?_,
      fun hfree k results hover hgive hproceeds => ?_⟩
    all_goals
      obtain ⟨before, function, args, hcontrol, hbefore, hwaiting, hseen⟩ :=
        (h.runsNext hrun hsame hpc hfree).waits h.calls
    · refine ⟨before, function, args, hcontrol, hstack ▸ hwaiting, ?_⟩
      rw [← hsame.vm, ← hsame.prototype, ← hpc]
      exact hseen
    · rw [hwaiting] at hover
      obtain ⟨back, hback, hreturned, hquiet⟩ := run_of_over hbefore hover hgive hproceeds
      rw [← Function.iterate_succ_apply' step] at hback hquiet
      exact ⟨⟨back, hback, hreturned.goesOn hsame hpc⟩, hsame.vm ▸ hquiet⟩

/-! ## A call that is declined -/

/-- A call is over when something is handed on for the first time and the same calls wait as when it
began. -/
theorem over_of_handed {function : Value} {args : List Value} {k : Nat} (hm : m.Anchored)
    (hcontrol : m.control = .call function args)
    (hquiet : ∀ j < k, (step^[j] m).handed? = none) (hhanded : (step^[k] m).handed? ≠ none)
    (hlength : (step^[k] m).stack.length = m.stack.length) : (step^[k] m).Over m.stack := by
  rcases (within_of_call hcontrol).iterate hm k with hall | ⟨j, hj, hover, -⟩
  · obtain ⟨above, stack, hstack, hkept, hnone⟩ := hall k le_rfl
    have habove : above = [] := by
      have hsame := congrArg List.length hstack
      rw [List.length_append, hlength, hkept.length_eq] at hsame
      exact List.length_eq_zero_iff.1 (by omega)
    exact absurd (hnone habove) hhanded
  · rcases Nat.lt_or_eq_of_le hj with hlt | rfl
    · exact absurd (hquiet j hlt) hover.2
    · exact hover

instance (m : Machine) : Decidable m.Proceeds :=
  decidable_of_iff ((match m.step.control with | .fail _ => false | _ => true) = true) <| by
    unfold Proceeds
    cases m.step.control <;> simp

/-- A module whose main function makes a closure, looks up a component of a vector, and calls the
closure, which gives nil. -/
def componentModule : Bytes :=
  [6, 1, 1, 1, 0x78, 2, 1, 0, 0, 0, 0, 0, 1, 0x16, 0, 2, 0, 0, 0, 0, 0, 0, 0,
    3, 0, 0, 0, 0, 0, 6, 0x13, 2, 0, 0, 5, 1, 0, 0, 0x14, 0, 1, 0, 1, 0, 0, 0, 0x15, 2, 1, 2,
    0x16, 2, 2, 0, 2, 7, 0, 0, 0, 0, 0, 0, 0, 0, 0, 0, 0, 0, 0, 0, 0, 0, 3, 1, 1, 0, 0, 0, 0, 0, 1]

/-- Settings that offer method calls to a handler which declines them all.  The calls of both hooks
are listed. -/
def decliningSettings : Settings :=
  { useNativeNamecall := true
    namecallHandler := some (HandlerScript.handler { mode := .decline } ⟨0⟩)
    hooks := HookScripts.hooks
      { step := some { log := true }, interrupt := some { log := true } } ⟨0⟩ }

theorem code_of_componentModule {heap : Heap}
    (h : decliningSettings.toLoadOptions.load componentModule {} = .ok (n, heap)) :
    (∃ look, (n.prototype 1).code[2]? = some (.instruction look) ∧ look.underlying = .namecall) ∧
      ∃ call, (n.prototype 1).code[4]? = some (.instruction call) ∧ call.underlying = .call := by
  have hcode : (decliningSettings.toLoadOptions.load componentModule {}).toOption.any (fun loaded =>
      ((loaded.1.prototype 1).instruction? 2).any (fun i => decide (i.underlying = .namecall)) &&
        ((loaded.1.prototype 1).instruction? 4).any fun i => decide (i.underlying = .call)) =
      true := by
    decide +kernel
  simp only [h, Except.toOption, Option.any_some, Bool.and_eq_true, Option.any_eq_true,
    decide_eq_true_eq, Prototype.instruction?_eq_some_iff] at hcode
  exact hcode

/-- Whether the frame of a main function is about to look up the component, and nothing is in its
way. -/
def looksUpComponent (m : Machine) : Bool :=
  (m.dispatching?.any fun (f, _) => decide (f.vm = ⟨0⟩ ∧ f.prototype = 1 ∧ f.pc = 2)) &&
    (m.world.vm? ⟨0⟩).any (·.alive) && decide (m.world.Clear ⟨0⟩ 1 2) &&
    (m.executing?.all fun (_, s) => decide (s.world.Clear ⟨0⟩ 1 4)) && decide m.Proceeds

theorem looksUp_of_component (hruns : m.world.Runs ⟨0⟩ n) {vm : Vm}
    (hvm : m.world.vm? ⟨0⟩ = some vm) (hsettings : vm.settings = decliningSettings)
    (hlook : (n.prototype 1).code[2]? = some (.instruction look))
    (hlooks : look.underlying = .namecall)
    (hcall : (n.prototype 1).code[4]? = some (.instruction call))
    (hcalls : call.underlying = .call)
    (h : m.looksUpComponent = true) :
    ∃ f, f.vm = ⟨0⟩ ∧ f.prototype = 1 ∧ f.pc = 2 ∧ m.LooksUp n f look call decliningSettings := by
  simp only [looksUpComponent, Bool.and_eq_true, decide_eq_true_eq] at h
  obtain ⟨⟨⟨⟨hnext, halive⟩, hclear⟩, hbehind⟩, hproceeds⟩ := h
  obtain ⟨⟨f, i⟩, hi, hf⟩ := (Option.any_eq_true _ _).1 hnext
  obtain ⟨hid, hprototype, hpc⟩ := of_decide_eq_true hf
  have hhandler : decliningSettings.namecallHandler =
      (some { mode := .decline }).map fun script => HandlerScript.handler script ⟨0⟩ := rfl
  have hwatched : decliningSettings.Watched ⟨0⟩ :=
    HookScripts.watched rfl (by rintro _ ⟨⟩; rfl) (by rintro _ ⟨⟩; rfl) hhandler
  rw [hvm, Option.any_some] at halive
  exact ⟨f, hid, hprototype, hpc, {
    run := (dispatching_spec hi).1
    machine := ⟨vm, hid ▸ hvm, halive, hsettings⟩
    runs := by rwa [hid]
    slot := by rwa [hprototype, hpc]
    clear := by rwa [hid, hprototype, hpc]
    watched := hid ▸ hwatched
    proceeds := hproceeds
    looks := hlooks
    behind := by rwa [hprototype, hpc]
    calls := hcalls
    clearBehind := by
      intro i s hexecuting
      rw [hexecuting] at hbehind
      rw [hid, hprototype, hpc]
      exact of_decide_eq_true hbehind
    native := rfl
    handler := rfl }⟩

/-- Whether the frame is about to call the closure, which then gives its results after two steps. -/
def callsClosure (m : Machine) : Bool :=
  (match m.control with | .run g => decide (g.pc = 4) | _ => false) &&
    (m.world.vm? ⟨0⟩).any (·.alive) && decide (m.world.Clear ⟨0⟩ 1 4) && decide m.Proceeds &&
    ((List.range 2).all fun k => (step^[k] m.step).handed?.isNone) &&
    (match (step^[2] m.step).control with | .give _ => true | _ => false) &&
    decide ((step^[2] m.step).stack.length = m.step.stack.length) &&
    decide (step^[2] m.step).Proceeds

/-- The handler declines, and the call runs.  As the hooks of the call come before the offer, they
see it twice, the step hook after the look-up. -/
theorem hook_counts_in_componentModule :
    ∃ n heap entry w f look call results,
      decliningSettings.toLoadOptions.load componentModule {} = .ok (n, heap) ∧
      World.loadBytes {} componentModule none decliningSettings = .ok (entry, w) ∧
      let m := step^[3] (start w (.function entry.main) [])
      m.LooksUp n f look call decliningSettings ∧ m.Answers none ∧
        (step^[2] m).world.sightings f.vm = m.world.sightings f.vm ++
          lookSighting 1 2 :: (callSightings 1 4 ++ callSightings 1 4) ∧
        (step^[4] m).control = .give results ∧
        (∃ g, (step^[5] m).control = .run g ∧ f.GoesOn call results g) ∧
        (step^[5] m).world.sightings f.vm = (step^[4] m).world.sightings f.vm := by
  have hcheck : (World.loadBytes {} componentModule none decliningSettings).toOption.any
      (fun loaded =>
        let m := step^[3] (start loaded.2 (.function loaded.1.main) [])
        decide (loaded.1.vm = ⟨0⟩) && m.looksUpComponent && m.step.callsClosure) = true := by
    decide +kernel
  -- the module and the moment at which the look-up comes next
  obtain ⟨entry, w, hload, hcheck⟩ := World.exists_of_loadBytes hcheck
  obtain ⟨n, heap, hmodule, hruns, vm, hvm, hsettings⟩ := World.runs_of_loadBytes hload
  rw [show ({} : World).heap = {} from rfl] at hmodule
  obtain ⟨⟨look, hlook, hlooks⟩, call, hcall, hcalls⟩ := code_of_componentModule hmodule
  have hevolves := iterate_evolves (start w (.function entry.main) []) 3
  have hreached := (reached_start hload (.function entry.main) []).iterate 3
  obtain ⟨vm', hvm', hchanged⟩ := hevolves.machine hvm
  replace hruns := hevolves.runs hruns
  dsimp only at hcheck
  refine ⟨n, heap, entry, w, ?_⟩
  generalize step^[3] (start w (.function entry.main) []) = m at hcheck hreached hvm' hruns ⊢
  simp only [Bool.and_eq_true, decide_eq_true_eq] at hcheck
  obtain ⟨⟨hentry, hlooking⟩, hcalling⟩ := hcheck
  rw [hentry] at hvm' hruns
  obtain ⟨f, hid, hprototype, hpc, hlooking⟩ := looksUp_of_component hruns hvm'
    (hchanged.settings.trans hsettings) hlook hlooks hcall hcalls hlooking
  simp only [callsClosure, Bool.and_eq_true, decide_eq_true_eq, List.all_eq_true,
    List.mem_range] at hcalling
  obtain ⟨⟨⟨⟨⟨⟨⟨hleft, halive⟩, hclear⟩, hproceeds⟩, hquiet⟩, hgives⟩, hlength⟩, hlast⟩ := hcalling
  obtain ⟨answer, hanswer, htakes, hleaves⟩ := hook_counts_of_namecall hmodule hlooking
  cases answer with
  | some results =>
    -- the frame would have gone on behind the call
    obtain ⟨g, hg, hgoesOn⟩ := (htakes results rfl).run
    rw [hg] at hleft
    have hpast := hgoesOn.pc
    rw [hpc, of_decide_eq_true hleft] at hpast
    cases hpast
  | none =>
    have hdeclined := hleaves rfl
    have hfree : m.step.Unhindered f :=
      ⟨hid ▸ (Option.any_eq_true _ _).1 halive, by rwa [hid, hprototype, hpc], hproceeds⟩
    obtain ⟨before, function, args, hcontrol, hwaiting, hseen⟩ := hdeclined.called hfree
    obtain ⟨results, hgive⟩ : ∃ results, (step^[2] m.step.step).control = .give results := by
      split at hgives
      · exact ⟨_, ‹_›⟩
      · cases hgives
    have hgiven : (step^[2] m.step.step).handed? ≠ none := by
      unfold handed?
      rw [hgive]
      exact Option.some_ne_none _
    have hover := over_of_handed (hreached.iterate 2).anchored hcontrol
      (fun j hj => Option.isNone_iff_eq_none.1 (hquiet j hj)) hgiven hlength
    obtain ⟨hback, hsame⟩ := hdeclined.returned hfree 2 results hover hgive hlast
    have hfirst := hdeclined.sightings
    rw [hid, hprototype, hpc] at hfirst hseen
    refine ⟨f, look, call, results, hmodule, hload, hlooking, hanswer, ?_, hgive, hback, hsame⟩
    rw [hid]
    exact hseen.trans (hfirst ▸ List.append_assoc _ _ _)

end Machine

end ScriptMachine
