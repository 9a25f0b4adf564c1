import ScriptMachine.Proofs.Calls.OpenArity
import ScriptMachine.Proofs.Calls.Unaware
import ScriptMachine.Proofs.Flow.Interrupts
import ScriptMachine.Proofs.Loops.Agreement

/-!
# Hosts that decline method calls

A method look-up offers the call that follows to the host: it makes room for the arguments of the
call and shows them to a handler.  If the handler declines and does nothing else, the offer leaves
nothing behind but the registers that were added.  The call would add them anyway; so a run without
the offer trails the other one for one step, and then both are in the same state again.

This takes hooks out of the picture, which would see the registers, and a limit that leaves room for
any call of byte operands, since the offer must not fail before the look-up has.
-/

namespace ScriptMachine

variable {id : VmId}

/-! ## Operands -/

/-- The byte operands of an instruction are bytes. -/
structure Instruction.Narrow (i : Instruction) : Prop where
  /-- The first is. -/
  a : i.operands.a < 256
  /-- The second is. -/
  b : i.operands.b < 256

/-! ## Register files that have grown -/

namespace Frame

variable {f g : Frame} {size limit slot : Nat}

/-- How many arguments a call takes. -/
def argumentCount (f : Frame) (call : Instruction) : Nat :=
  if call.operands.b = 0 then (f.top - (call.operands.a + 1 : Nat) + 1).toNat
  else call.operands.b - 1

/-- The registers that a call goes by: those up to its last argument. -/
def callWindow (f : Frame) (call : Instruction) : Nat := call.operands.a + 1 + f.argumentCount call

/-- In loaded code there is room for these registers whenever there may be 512. -/
theorem Topped.ensure?_callWindow {call : Instruction} (h : f.Topped) (hlimit : 512 ≤ limit)
    (hcall : call.Narrow) : ∃ g, f.ensure? (f.callWindow call) limit = some g := by
  refine Option.isSome_iff_exists.1 ?_
  rw [ensure?_isSome, Bool.or_eq_true, decide_eq_true_eq, decide_eq_true_eq]
  obtain ⟨ha, hb⟩ := hcall
  unfold Topped at h
  unfold callWindow argumentCount
  split <;> omega

theorem ensure?_of_le (h : size ≤ f.registers.size) : f.ensure? size limit = some f := if_pos h

theorem ensure?_moved (h : f.ensure? size limit = some g) (current pc : Nat) :
    ensure? { f with current, pc } size limit = some { g with current, pc } := by
  unfold ensure? at h ⊢
  split at h
  · cases h
    exact if_pos ‹_›
  · split at h
    · cases h
    · cases h
      exact (if_neg ‹_›).trans (if_neg ‹_›)

/-- A register that is there can be written before the register file grows, or after it has. -/
theorem ensure?_put (h : f.ensure? size limit = some g) (hslot : slot < f.registers.size)
    (value : Value) : (f.put slot value).ensure? size limit = some (g.put slot value) := by
  unfold ensure? at h ⊢
  rw [size_put]
  split at h
  · cases h
    exact if_pos ‹_›
  · split at h
    · cases h
    · cases h
      rw [if_neg ‹_›, if_neg ‹_›]
      unfold put
      simp only [Array.setIfInBounds_append, if_pos hslot]

namespace Grown

variable (h : f.Grown g)

include h

theorem closeFrom (store : Cells) (slot : Nat) :
    (g.toScope.closeFrom store slot).2 = (f.toScope.closeFrom store slot).2 := by
  have hcell : g.toScope.closeCell = f.toScope.closeCell := by
    funext store cell
    unfold Scope.closeCell
    simp only [h.register, h.sameCall.id]
  unfold Scope.closeFrom
  dsimp only
  rw [hcell, show g.captured = f.captured by rw [h.frame]]

theorem endFrame (w : World) : Machine.endFrame w g = Machine.endFrame w f := by
  unfold Machine.endFrame
  rw [h.closeFrom, h.sameCall.vm]

/-- Only a panic hook sees how many registers there are. -/
theorem handle {w : World} (hpanic : ∀ vm, w.vm? f.vm = some vm → vm.settings.hooks.panic = none)
    (failure : Failure) : ScriptMachine.handle w g failure = ScriptMachine.handle w f failure := by
  unfold ScriptMachine.handle
  rw [h.sameCall.vm]
  cases hvm : w.vm? f.vm with
  | none => rfl
  | some vm =>
    have hraise : ∀ payload, raise w vm g payload = raise w vm f payload := by
      intro payload
      unfold raise
      rw [hpanic vm hvm, h.frame]
      rfl
    cases failure with
    | fault fault => simp only [hraise]
    | script payload reported => cases reported <;> simp only [hraise]
    | confusion | missingSlot | foreign => rfl

theorem abort {w : World} (hpanic : ∀ vm, w.vm? f.vm = some vm → vm.settings.hooks.panic = none)
    (stack : Stack) (failure : Failure) :
    Machine.abort w g stack failure = Machine.abort w f stack failure := by
  unfold Machine.abort
  rw [h.handle hpanic]
  dsimp only
  rw [h.endFrame]

end Grown

end Frame

/-! ## Declined offers -/

/-- The host declines all method calls, and does nothing else: it has no hooks, and leaves room for
the registers of any call. -/
structure Settings.Declines (settings : Settings) : Prop extends settings.Quiet where
  /-- There is no panic hook either. -/
  panic : settings.hooks.panic = none
  /-- Register files may have as many registers as a call can go by. -/
  room : 512 ≤ settings.maxRegisters
  /-- The handler declines, without touching the world. -/
  declined : ∀ handler, settings.namecallHandler = some handler → ∀ method args (w : World),
    (handler method args).perform w = (w, .ok none)

namespace Effect

variable {s t : Running} {i call : Instruction} {g : Frame}

/-- A frame of the same machine. -/
theorem vm_of_frame (h : g.vm = s.frame.vm) : (Running.mk s.world g s.stack).vm = s.vm := by
  unfold Running.vm
  rw [h]

theorem interrupt_of_quiet (hquiet : s.vm.settings.Quiet) (opcode : Opcode) :
    interrupt opcode s = .ok () s := by
  unfold interrupt
  rw [settings_bind, hquiet.interrupt]
  rfl

/-- Without hooks nothing is left of calling them. -/
theorem callHooks_of_quiet (hquiet : s.vm.settings.Quiet) : callHooks s = .ok () s := by
  have hstep : ∀ u : Running, u.vm.settings.Quiet → stepHook .call u = .ok () u := by
    intro u hu
    unfold stepHook
    rw [settings_bind, hu.step]
    rfl
  let u : Running := { s with frame := { s.frame with current := s.frame.pc } }
  unfold callHooks
  rw [get_bind, modifyFrame_bind, bind_of_ok (hstep u hquiet),
    bind_of_ok (interrupt_of_quiet (s := u) hquiet _)]
  rfl

theorem values_of_ensure? {first count : Nat}
    (hgrown : s.frame.ensure? (first + count) s.vm.settings.maxRegisters = some g) :
    values first count s = .ok (g.slice first count) { s with frame := g } := by
  have hensure : ensure (first + count) s = .ok () { s with frame := g } := by
    rw [ensure_eq, hgrown]
  exact bind_of_ok hensure

/-- What a call does without hooks, if there is room. -/
theorem call_of_quiet (hquiet : s.vm.settings.Quiet)
    (hgrown : s.frame.ensure? (s.frame.callWindow i) s.vm.settings.maxRegisters = some g) :
    Effect.call i s = .ok (.call (g.register i.operands.a)
      (g.slice (i.operands.a + 1) (s.frame.argumentCount i)) (.results i.operands.a i.operands.c))
      { s with frame := g } := by
  unfold Effect.call
  rw [bind_of_ok (interrupt_of_quiet hquiet _)]
  exact bind_of_ok (values_of_ensure? hgrown)

/-- So a call does the same if the register file has grown before. -/
theorem dispatch_call_of_grown (hquiet : s.vm.settings.Quiet) (hop : i.operation = .call)
    (hgrown : s.frame.ensure? (s.frame.callWindow i) s.vm.settings.maxRegisters = some g) :
    dispatch i { s with frame := g } = dispatch i s := by
  have hg := Frame.grown_ensure? hgrown
  have hvm := vm_of_frame hg.sameCall.vm
  have hquiet' : (Running.mk s.world g s.stack).vm.settings.Quiet := by rwa [hvm]
  have hcount : g.argumentCount i = s.frame.argumentCount i := by
    unfold Frame.argumentCount
    rw [hg.top]
  have hbody : ∀ u : Running, body i none u = Effect.call i u := by
    intro u
    show execute i.operation i u = _
    rw [hop]
    rfl
  rw [dispatch_eq, bind_of_ok (prelude_of_silent hquiet'.trace hquiet'.transparent i),
    bind_of_ok (prelude_of_silent hquiet.trace hquiet.transparent i), hbody, hbody]
  have hfits : g.ensure? (g.callWindow i) s.vm.settings.maxRegisters = some g := by
    refine Frame.ensure?_of_le ?_
    unfold Frame.callWindow
    rw [hcount]
    exact (Frame.ensure?_spec hgrown).2.1
  have hplain := call_of_quiet (s := s.advanced) hquiet (Frame.ensure?_moved hgrown _ _)
  have hroomy := call_of_quiet (s := Running.advanced ⟨s.world, g, s.stack⟩) hquiet'
    (Frame.ensure?_moved (hvm.symm ▸ hfits) _ _)
  rw [hplain, hroomy, hg.pc]
  show EStateM.Result.ok (Outcome.call _ (Frame.slice _ _ (g.argumentCount i)) _) _ = _
  rw [hcount]
  rfl

/-- An offer that is declined leaves room for the arguments of the call, and nothing else. -/
theorem offerNamecall_of_declined (hsettings : s.vm.settings.Declines)
    (hhandler : s.vm.settings.namecallHandler.isSome = true)
    (hcall : offeredCall? s = .ok (some call) s)
    (hgrown : s.frame.ensure? (s.frame.callWindow call) s.vm.settings.maxRegisters = some g)
    (method : Value) : offerNamecall method s = .ok false { s with frame := g } := by
  obtain ⟨handler, hhandler⟩ := Option.isSome_iff_exists.1 hhandler
  have hdeclines : ∀ (u : Running) args, perform (handler method.toText args) u = .ok none u := by
    intro u args
    unfold perform
    rw [hsettings.declined handler hhandler]
  unfold offerNamecall
  rw [settings_bind, bind_of_ok hcall, hhandler]
  dsimp only
  split
  · refine (bind_of_ok (callHooks_of_quiet hsettings.toQuiet)).trans ?_
    exact (bind_of_ok (values_of_ensure? hgrown)).trans (bind_of_ok (hdeclines _ _))
  · exact (bind_of_ok (values_of_ensure? hgrown)).trans (bind_of_ok (hdeclines _ _))

/-- What is offered is the call in the next slot. -/
theorem offered_spec (h : offeredCall? s = .ok (some call) s) :
    s.vm.settings.useNativeNamecall = true ∧ call.opcode = .call ∧
      s.prototype.code[s.frame.pc]?.map Slot.asInstruction = some call := by
  cases huse : s.vm.settings.useNativeNamecall with
  | false =>
    unfold offeredCall? at h
    simp only [settings_bind, huse] at h
    cases h
  | true =>
    cases hslot : s.prototype.code[s.frame.pc]?.map Slot.asInstruction with
    | none =>
      unfold offeredCall? at h
      simp only [settings_bind, huse, Bool.not_true, Bool.false_eq_true, if_false, prototype_bind,
        get_bind, hslot] at h
      cases h
    | some i =>
      rw [offeredCall?_eq huse hslot] at h
      split at h
      · cases h
        exact ⟨rfl, ‹_›, rfl⟩
      · cases h

/-- The last part of a look-up: the method goes where the call expects the function. -/
def fetch (i : Instruction) (object : Value) : Effect Outcome := do
  put i.operands.a (← getField object i.constant.value)
  return .next

theorem fetch_eq (i : Instruction) (object : Value) : fetch i object =
    (do put i.operands.a (← getField object i.constant.value) : Effect Unit) >>=
      fun _ => pure .next := by
  unfold fetch
  rw [bind_assoc]

theorem unaware_fetch (i : Instruction) (object : Value) : Unaware id (fetch i object) :=
  (unaware_getField _ _).bind fun _ => (unaware_put _ _).bind fun _ => unaware_pure _

/-- Where fields are the same, the same method is fetched, or none. -/
theorem fetch_alike (h : LooksAlike s t) (i : Instruction) (object : Value) :
    (∃ fault, fetch i object s = .error (.fault fault) s ∧
      fetch i object t = .error (.fault fault) t) ∨
    ∃ method, fetch i object s = .ok .next { s with frame := s.frame.put i.operands.a method } ∧
      fetch i object t = .ok .next { t with frame := t.frame.put i.operands.a method } := by
  obtain ⟨fault | method, hs, ht⟩ := h.getField object i.constant.value
  · exact .inl ⟨fault, bind_of_error hs, bind_of_error ht⟩
  · exact .inr ⟨method, bind_of_ok hs, bind_of_ok ht⟩

theorem dispatch_namecall (hquiet : s.vm.settings.Quiet) (hop : i.operation = .namecall) :
    dispatch i s = (namecall i >>= fun _ => pure .next) s.advanced := by
  rw [dispatch_eq, bind_of_ok (prelude_of_silent hquiet.trace hquiet.transparent i)]
  show execute i.operation i _ = _
  rw [hop]
  rfl

/-- A look-up that offers no call fetches its method. -/
theorem dispatch_of_not_offers (hquiet : s.vm.settings.Quiet) (hop : i.operation = .namecall)
    (hoffers : ¬ Offers i s.advanced) :
    dispatch i s = fetch i (s.frame.register i.operands.b) (lookedUp i s.advanced) := by
  rw [dispatch_namecall hquiet hop, fetch_eq]
  exact bind_of_eq (namecall_of_not_offers hoffers) _

/-- So does one whose offer is declined, when the register file has grown for the call. -/
theorem dispatch_of_declined (hsettings : s.vm.settings.Declines) (hop : i.operation = .namecall)
    (hhandler : s.vm.settings.namecallHandler.isSome = true)
    (hcall : offeredCall? (lookedUp i s.advanced) = .ok (some call) (lookedUp i s.advanced))
    (hgrown : (lookedUp i s.advanced).frame.ensure? ((lookedUp i s.advanced).frame.callWindow call)
      s.vm.settings.maxRegisters = some g) :
    dispatch i s = fetch i (s.frame.register i.operands.b)
      { lookedUp i s.advanced with frame := g } := by
  have hoffer := offerNamecall_of_declined (s := lookedUp i s.advanced) hsettings hhandler hcall
    hgrown i.constant.value
  have hnamecall : namecall i s.advanced = (do
      put i.operands.a (← getField (s.frame.register i.operands.b) i.constant.value) : Effect Unit)
      { lookedUp i s.advanced with frame := g } := by
    unfold namecall
    rw [register_bind, put_bind, jump_bind]
    exact bind_of_ok hoffer
  rw [dispatch_namecall hsettings.toQuiet hop, fetch_eq]
  exact bind_of_eq hnamecall _

/-- Where no call is offered, a look-up fetches its method. -/
theorem dispatch_unoffered (hvm : s.frame.vm = id) (hquiet : s.vm.settings.Quiet)
    (hpresent : (s.world.vm? s.frame.vm).isSome = true) (hop : i.operation = .namecall) :
    dispatch i (s.unoffered id) = mapWorld (.unoffered id)
      (fetch i (s.frame.register i.operands.b) (lookedUp i s.advanced)) := by
  have hswitched : (s.unoffered id).vm = s.vm.unoffered := by
    obtain ⟨vm, hpresent⟩ := Option.isSome_iff_exists.1 hpresent
    refine World.vm_of_vm? ?_
    show (s.world.unoffered id).vm? s.frame.vm = _
    rw [World.vm?_unoffered, hpresent, Option.map_some, if_pos hvm.symm, World.vm_of_vm? hpresent]
  have hkeeps : ¬ Offers i (s.unoffered id).advanced := by
    rintro ⟨-, call, hcall⟩
    have huse := (offered_spec hcall).1
    rw [show (lookedUp i (s.unoffered id).advanced).vm = (s.unoffered id).vm from rfl,
      hswitched] at huse
    cases huse
  have hquiet' : (s.unoffered id).vm.settings.Quiet := by
    rw [hswitched]
    exact ⟨hquiet.trace, hquiet.step, hquiet.breakpoint, hquiet.interrupt⟩
  rw [dispatch_of_not_offers hquiet' hop hkeeps]
  exact (unaware_fetch _ _ (lookedUp i s.advanced)).same

end Effect

/-! ## Worlds of hosts that decline -/

/-- A machine is there whose host declines all method calls, and whose code is made of words. -/
def World.Declines (w : World) (id : VmId) : Prop :=
  ∃ vm, w.vm? id = some vm ∧ vm.settings.Declines ∧ ∀ (index slot : Nat) (i : Instruction),
    (vm.prototype index).code[slot]?.map Slot.asInstruction = some i → i.Narrow

namespace Machine

variable {m n : Machine} {f g : Frame} {i call : Instruction}

theorem declines_at {s : Running} (h : s.world.Declines s.frame.vm) :
    s.vm.settings.Declines ∧ (s.world.vm? s.frame.vm).isSome = true ∧
      ∀ (slot : Nat) i, s.prototype.code[slot]?.map Slot.asInstruction = some i → i.Narrow := by
  obtain ⟨vm, hvm, hsettings, hnarrow⟩ := h
  have hsame : s.vm = vm := World.vm_of_vm? hvm
  refine ⟨hsame ▸ hsettings, by rw [hvm]; rfl, fun slot i hi => hnarrow s.frame.prototype slot i ?_⟩
  rw [← hsame]
  exact hi

/-- In the next step, methods are looked up into registers that the frame has.  What is stored
anywhere else has no meaning in compiled code: it is lost, unless the register file happens to have
grown before. -/
def LooksUpInside (id : VmId) (m : Machine) : Prop :=
  ∀ f i, m.dispatching? = some (f, i) → f.vm = id → i.operation = .namecall →
    i.operands.a < f.registers.size

theorem stepsUnaware_or (hm : m.world.Declines id) : m.StepsUnaware id ∨
    ∃ f i, m.dispatching? = some (f, i) ∧ f.vm = id ∧ i.operation = .namecall := by
  by_cases hlooks : ∃ f i, m.dispatching? = some (f, i) ∧ f.vm = id ∧ i.operation = .namecall
  · exact .inr hlooks
  · refine .inl fun f i hi hid => ⟨fun hop => hlooks ⟨f, i, hi, hid, hop⟩, ?_⟩
    subst hid
    have hnext := (dispatching_spec hi).2
    exact ((declines_at (s := ⟨m.world, f, m.stack⟩) hm).2.2 _ _ (code_of_next hnext).2).a

/-- One run trails another one: it is about to make the same call, but its register file has still
to grow for it. -/
structure Trails (id : VmId) (m n : Machine) : Prop where
  /-- The worlds are the same. -/
  world : n.world = m.world
  /-- Neither has ended, or both have. -/
  outcome : n.outcome? = m.outcome?
  /-- The next step makes up for the difference. -/
  step : n.step = m.step
  /-- It looks no method up. -/
  unaware : n.StepsUnaware id

/-- The call itself makes the room that it needs, unless the frame ends before. -/
theorem trails_of_grown {w : World} {stack : Stack} (hw : w.Declines f.vm)
    (hcall : call.opcode = .call)
    (hslot : (Running.mk w f stack).prototype.code[f.pc]?.map Slot.asInstruction = some call)
    (hgrown : f.ensure? (f.callWindow call) (Running.mk w f stack).vm.settings.maxRegisters =
      some g) : Trails f.vm ⟨w, stack, .run g⟩ ⟨w, stack, .run f⟩ := by
  have hg := Frame.grown_ensure? hgrown
  obtain ⟨hsettings, -, hnarrow⟩ := declines_at (s := ⟨w, f, stack⟩) hw
  have hop : call.operation = .call := by
    unfold Instruction.operation
    rw [hcall]
    rfl
  have hnext : ∀ i, nextInstruction? w f = some i → i = call := by
    intro i hi
    have hi' := (code_of_next (s := ⟨w, f, stack⟩) hi).2
    exact Option.some.inj (hi'.symm.trans hslot)
  have hsame : nextInstruction? w g = nextInstruction? w f := by
    rw [hg.frame]
    rfl
  refine ⟨rfl, by cases stack <;> rfl, ?_, fun f' i hi _ => ?_⟩
  · unfold step
    dsimp only
    rw [hsame]
    cases hi : nextInstruction? w f with
    | none =>
      unfold leave
      dsimp only
      rw [hg.endFrame]
    | some i =>
      obtain rfl := hnext i hi
      dsimp only
      rw [← Effect.dispatch_call_of_grown (s := ⟨w, f, stack⟩) hsettings.toQuiet hop hgrown]
  · obtain ⟨hf, hi⟩ := dispatching_spec hi
    cases hf
    obtain rfl := hnext i hi
    rw [hop]
    exact ⟨nofun, (hnarrow _ _ hslot).a⟩

/-- A run keeps up with another one: it is the same, or trails it. -/
def KeepsUp (id : VmId) (m n : Machine) : Prop := n = m ∨ Trails id m n

theorem KeepsUp.world (h : KeepsUp id m n) : n.world = m.world := by
  rcases h with rfl | htrails
  · rfl
  · exact htrails.world

theorem KeepsUp.outcome (h : KeepsUp id m n) : n.outcome? = m.outcome? := by
  rcases h with rfl | htrails
  · rfl
  · exact htrails.outcome

/-! ### A look-up -/

/-- A look-up fetches its method; if a call has been offered, for a register file that has grown for
the call. -/
theorem dispatch_namecall_cases {s : Running} (hs : s.world.Declines s.frame.vm)
    (htopped : s.frame.Topped) (hop : i.operation = .namecall) :
    let u := Effect.lookedUp i s.advanced
    let method := Effect.fetch i (s.frame.register i.operands.b)
    Effect.dispatch i s = method u ∨
      ∃ call g, call.opcode = .call ∧
        u.prototype.code[u.frame.pc]?.map Slot.asInstruction = some call ∧
        u.frame.ensure? (u.frame.callWindow call) u.vm.settings.maxRegisters = some g ∧
        Effect.dispatch i s = method { u with frame := g } := by
  intro u method
  obtain ⟨hsettings, -, hnarrow⟩ := declines_at hs
  by_cases hoffers : Effect.Offers i s.advanced
  · obtain ⟨hhandler, call, hcall⟩ := hoffers
    obtain ⟨-, hopcode, hslot⟩ := Effect.offered_spec hcall
    have htopped' : u.frame.Topped := htopped.of_size_le rfl Frame.size_put.ge
    obtain ⟨g, hgrown⟩ := htopped'.ensure?_callWindow hsettings.room (hnarrow _ _ hslot)
    exact .inr ⟨call, g, hopcode, hslot, hgrown,
      Effect.dispatch_of_declined hsettings hop hhandler hcall hgrown⟩
  · exact .inl (Effect.dispatch_of_not_offers hsettings.toQuiet hop hoffers)

/-- The tops of frames stay within bounds in a look-up. -/
theorem topped_of_namecall (hm : m.world.Declines id) (htopped : m.Topped id)
    (hi : m.dispatching? = some (f, i)) (hf : f.vm = id) (hop : i.operation = .namecall) :
    m.step.Topped id := by
  subst hf
  obtain ⟨hcontrol, -⟩ := dispatching_spec hi
  let s : Running := ⟨m.world, f, m.stack⟩
  have hs : s.Topped f.vm := by
    intro g hg
    refine htopped g ?_
    unfold frames
    rw [hcontrol]
    exact hg
  have hu : (Effect.lookedUp i s.advanced).Topped f.vm :=
    hs.of_frame _ rfl fun _ h => h.of_size_le rfl Frame.size_put.ge
  rw [step_of_acting (acting_of_dispatching hi)]
  refine topped_ofOutcome ?_
  rcases dispatch_namecall_cases (s := s) hm (hs f List.mem_cons_self rfl) hop with
    hmethod | ⟨call, g, -, -, hgrown, hmethod⟩
  · rw [hmethod]
    exact (Effect.unaware_fetch _ _ _).topped hu
  · have hg := Frame.grown_ensure? hgrown
    rw [hmethod]
    refine (Effect.unaware_fetch _ _ _).topped (hu.of_frame _ hg.sameCall.vm fun _ h => ?_)
    exact h.of_size_le hg.top hg.size_le

theorem topped_step (hm : m.world.Declines id) (htopped : m.Topped id) : m.step.Topped id := by
  rcases stepsUnaware_or hm with hunaware | ⟨f, i, hi, hf, hop⟩
  · exact hunaware.topped htopped
  · exact topped_of_namecall hm htopped hi hf hop

/-- A method that is fetched is the same before the register file grows for the call, and after. -/
theorem keepsUp_of_fetch {u : Running} (hu : u.world.Declines u.frame.vm)
    (hcall : call.opcode = .call)
    (hslot : u.prototype.code[u.frame.pc]?.map Slot.asInstruction = some call)
    (hgrown : u.frame.ensure? (u.frame.callWindow call) u.vm.settings.maxRegisters = some g)
    (hinside : i.operands.a < u.frame.registers.size) (object : Value) :
    KeepsUp u.frame.vm (ofOutcome (Effect.fetch i object { u with frame := g }))
      (ofOutcome (Effect.fetch i object u)) := by
  have hg := Frame.grown_ensure? hgrown
  have halike : Effect.LooksAlike u { u with frame := g } := by
    refine ⟨rfl, ?_, ?_, ?_, ?_⟩ <;> rw [Effect.vm_of_frame hg.sameCall.vm]
  rcases Effect.fetch_alike halike i object with ⟨fault, hplain, hroomy⟩ | ⟨method, hplain, hroomy⟩
  · left
    rw [hplain, hroomy]
    refine (hg.abort (fun vm hvm => ?_) _ _).symm
    have hsame : u.vm = vm := World.vm_of_vm? hvm
    rw [← hsame]
    exact (declines_at hu).1.panic
  · right
    rw [hplain, hroomy]
    have hput := Frame.ensure?_put hgrown hinside method
    exact trails_of_grown (f := u.frame.put i.operands.a method) hu hcall hslot hput

/-- Without the offer a look-up comes to the same, or to the same call for which its register file
has still to grow. -/
theorem keepsUp_of_namecall (hm : m.world.Declines id) (htopped : m.Topped id)
    (hinside : m.LooksUpInside id) (hi : m.dispatching? = some (f, i)) (hf : f.vm = id)
    (hop : i.operation = .namecall) :
    ∃ n, (m.unoffered id).step = n.unoffered id ∧ KeepsUp id m.step n := by
  subst hf
  let s : Running := ⟨m.world, f, m.stack⟩
  let u : Running := Effect.lookedUp i s.advanced
  obtain ⟨hsettings, hpresent, -⟩ := declines_at (s := s) hm
  have hunoffered : (m.unoffered f.vm).step =
      (ofOutcome (Effect.fetch i (f.register i.operands.b) u)).unoffered f.vm := by
    have hi' : (m.unoffered f.vm).dispatching? = some (f, i) := by rw [dispatching?_unoffered, hi]
    rw [step_of_acting (acting_of_dispatching hi'), ← ofOutcome_unoffered]
    exact congrArg ofOutcome (Effect.dispatch_unoffered (s := s) rfl hsettings.toQuiet hpresent hop)
  have hf : f.Topped := htopped f (mem_frames_of_run (dispatching_spec hi).1) rfl
  refine ⟨_, hunoffered, ?_⟩
  rw [step_of_acting (acting_of_dispatching hi)]
  rcases dispatch_namecall_cases (s := s) hm hf hop with
    hmethod | ⟨call, g, hcall, hslot, hgrown, hmethod⟩
  · rw [hmethod]
    exact .inl rfl
  · have hu : i.operands.a < u.frame.registers.size :=
      (hinside f i hi rfl hop).trans_eq Frame.size_put.symm
    rw [hmethod]
    exact keepsUp_of_fetch (u := u) hm hcall hslot hgrown hu _

/-! ### Runs -/

/-- It keeps up when both make a step, although no call is offered in it. -/
theorem KeepsUp.step (h : KeepsUp id m n) (hm : m.world.Declines id) (htopped : m.Topped id)
    (hinside : m.LooksUpInside id) :
    ∃ n', (n.unoffered id).step = n'.unoffered id ∧ KeepsUp id m.step n' := by
  rcases h with rfl | htrails
  · rcases stepsUnaware_or hm with hunaware | ⟨f, i, hi, hf, hop⟩
    · exact ⟨n.step, hunaware.step, .inl rfl⟩
    · exact keepsUp_of_namecall hm htopped hinside hi hf hop
  · exact ⟨n.step, htrails.unaware.step, .inl htrails.step⟩

/-- So the runs end alike. -/
theorem KeepsUp.run (h : KeepsUp id m n) (hm : ∀ u, m.world.Evolves u → u.Declines id)
    (htopped : m.Topped id) (fuel : Nat)
    (hinside : ∀ k < fuel, (Machine.step^[k] m).LooksUpInside id) :
    (n.unoffered id).run fuel =
      (m.run fuel).map fun ended => (ended.1.unoffered id, ended.2) := by
  have houtcome : (n.unoffered id).outcome? = m.outcome? := h.outcome
  have hworld : (n.unoffered id).world = m.world.unoffered id :=
    congrArg (World.unoffered id) h.world
  induction fuel generalizing m n with
  | zero =>
    unfold Machine.run
    rw [houtcome, hworld, Option.map_map]
    rfl
  | succ fuel ih =>
    unfold Machine.run
    rw [houtcome, hworld]
    cases m.outcome? with
    | some outcome => rfl
    | none =>
      obtain ⟨n', hstep, hn'⟩ := h.step (hm _ (.refl _)) htopped (hinside 0 fuel.zero_lt_succ)
      dsimp only
      rw [hstep]
      refine ih hn' (fun u hu => hm u ((step_evolves m).trans hu))
        (topped_step (hm _ (.refl _)) htopped) (fun k hk => ?_) hn'.outcome
        (congrArg (World.unoffered id) hn'.world)
      rw [← Function.iterate_succ_apply]
      exact hinside (k + 1) (Nat.succ_lt_succ hk)

end Machine

/-! ## Loaded machines -/

namespace World

/-- Settings of a host that declines. -/
def decliningSettings : Settings :=
  { useNativeNamecall := true, namecallHandler := some fun _ _ => .done none }

end World

end ScriptMachine
