import ScriptMachine.Host.Script
import ScriptMachine.Proofs.Machine.Outcomes

/-!
# What hooks see

A host can keep a record of the calls of its hooks.  Its step hook and its interrupt hook then
record every call of theirs, whatever else they do, and nothing else that the host does records one.
So one can read off the record which calls an effect has made, in order.
-/

namespace ScriptMachine

/-! ## Records -/

/-- A call of a hook: which hook it was, and the place in the code that it was shown. -/
structure Sighting where
  /-- The kind of the hook. -/
  kind : HookKind
  /-- The prototype of the frame. -/
  prototype : Nat
  /-- The slot of the instruction. -/
  slot : Nat
  /-- The operation of the instruction. -/
  opcode : Opcode
deriving DecidableEq

/-- What a hook of some kind sees. -/
def HookContext.sighting (context : HookContext) (kind : HookKind) : Sighting :=
  { kind, prototype := context.prototype, slot := context.slot, opcode := context.opcode }

/-- The call of a step hook or an interrupt hook of a machine on which an event reports. -/
def Event.sighting? (id : VmId) : Event → Option Sighting
  | .hook report =>
    if report.vm = id ∧ (report.kind = .step ∨ report.kind = .interrupt) then
      some (report.context.sighting report.kind)
    else none
  | _ => none

/-- The calls of the step hook and the interrupt hook of a machine that the host has recorded. -/
def World.sightings (w : World) (id : VmId) : List Sighting :=
  w.events.toList.filterMap fun (event, _) => event.sighting? id

variable {id : VmId}

theorem World.sightings_record (w : World) (event : Event) :
    (w.record event).sightings id = w.sightings id ++ (event.sighting? id).toList := by
  simp only [World.sightings, World.record, Array.toList_push, List.filterMap_append]
  cases h : event.sighting? id <;> simp [h]

theorem World.sightings_setBreakpoint {w w' : World} {other : VmId} {index slot : Nat}
    {enabled : Bool} (h : w.setBreakpoint other index slot enabled = .ok w') :
    w'.sightings id = w.sightings id := by
  rcases setBreakpoint_cases h with rfl | ⟨m, rfl⟩ <;> rfl

namespace Program

variable {κ α β : Type}

/-- However the program comes to its end, it records these calls of hooks of a machine, in order. -/
def Tells (id : VmId) : Program κ α → List Sighting → Prop
  | done _, seen => seen = []
  | fail _, _ => True
  | call _ resume, seen => ∀ answer, (resume answer).Tells id seen
  | get _ _ resume, seen => ∀ value, (resume value).Tells id seen
  | set _ _ _ rest, seen => rest.Tells id seen
  | next _ _ resume, seen => ∀ pair, (resume pair).Tells id seen
  | length _ resume, seen => ∀ n, (resume n).Tells id seen
  | write _ rest, seen | close _ rest, seen | release _ rest, seen
  | breakpoint _ _ _ _ rest, seen => rest.Tells id seen
  | record event rest, seen =>
    ∃ others, seen = (event.sighting? id).toList ++ others ∧ rest.Tells id others
  | count _ _ resume, seen => ∀ n, (resume n).Tells id seen

/-- What a program tells is in the record when it has ended. -/
theorem Tells.settle {p : Program κ α} {seen : List Sighting} (h : p.Tells id seen) {w w' : World}
    {result : α} (hp : p.settle w = (w', .done result)) :
    w'.sightings id = w.sightings id ++ seen := by
  induction p generalizing w seen with
  | done result =>
    cases hp
    rw [show seen = [] from h, List.append_nil]
  | fail failure => cases hp
  | call target resume ih => cases hp
  | get t key resume ih => exact ih _ (h _) hp
  | set t key value rest ih =>
    unfold Program.settle at hp
    split at hp
    · rename_i heap _
      exact ih (w := { w with heap }) h hp
    · cases hp
  | next t key resume ih =>
    unfold Program.settle at hp
    split at hp
    · exact ih _ (h _) hp
    · cases hp
  | length t resume ih => exact ih _ (h _) hp
  | write bytes rest ih => exact ih (w := { w with output := w.output.push bytes }) h hp
  | close vm rest ih => exact ih (w := w.close vm) h hp
  | release vm rest ih => exact ih (w := w.release vm) h hp
  | «breakpoint» vm index slot enabled rest ih =>
    unfold Program.settle at hp
    split at hp
    · rename_i hset
      rw [ih h hp, World.sightings_setBreakpoint hset]
    · cases hp
  | record event rest ih =>
    obtain ⟨others, rfl, hothers⟩ := h
    rw [ih hothers hp, World.sightings_record, List.append_assoc]
  | count vm kind resume ih => exact ih _ (h _) (w := w.countUp vm kind) hp

theorem Tells.perform {p : HookProgram α} {seen : List Sighting} (h : p.Tells id seen)
    {w w' : World} {result : α} (hp : p.perform w = (w', .ok result)) :
    w'.sightings id = w.sightings id ++ seen := by
  unfold Program.perform at hp
  split at hp
  · rename_i hsettle
    cases hp
    exact h.settle hsettle
  · cases hp

/-- A hook that records its call, and then records no other one, tells of its call. -/
theorem Tells.recorded {p : Program κ α} (h : p.Tells id []) {report : HookReport}
    (hvm : report.vm = id) (hkind : report.kind = .step ∨ report.kind = .interrupt) :
    (record (.hook report) p).Tells id [report.context.sighting report.kind] :=
  ⟨[], by simp [Event.sighting?, hvm, hkind], h⟩

/-- A program whose end tells nothing tells the same with another result. -/
theorem Tells.bind_done {p : Program κ α} {seen : List Sighting} (h : p.Tells id seen) (f : α → β) :
    (p.bind fun result => .done (f result)).Tells id seen := by
  induction p generalizing seen with
  | done result => exact h
  | fail failure => trivial
  | call target resume ih => exact fun answer => ih answer (h answer)
  | get t key resume ih => exact fun value => ih value (h value)
  | set t key value rest ih => exact ih h
  | next t key resume ih => exact fun pair => ih pair (h pair)
  | length t resume ih => exact fun n => ih n (h n)
  | write bytes rest ih => exact ih h
  | close vm rest ih => exact ih h
  | release vm rest ih => exact ih h
  | «breakpoint» vm index slot enabled rest ih => exact ih h
  | record event rest ih =>
    obtain ⟨others, hseen, hothers⟩ := h
    exact ⟨others, hseen, ih hothers⟩
  | count vm kind resume ih => exact fun n => ih n (h n)

end Program

/-! ## Hosts that keep a record -/

/-- The step hook and the interrupt hook of a machine record their calls, each of them once, and its
handler of method calls records none. -/
structure Settings.Watched (settings : Settings) (id : VmId) : Prop where
  /-- The step hook records its call. -/
  step : ∀ hook, settings.hooks.step = some hook →
    ∀ context, (hook context).Tells id [context.sighting .step]
  /-- So does the interrupt hook. -/
  interrupt : ∀ hook, settings.hooks.interrupt = some hook →
    ∀ context, (hook context).Tells id [context.sighting .interrupt]
  /-- The handler records no call of a hook. -/
  handler : ∀ handler, settings.namecallHandler = some handler →
    ∀ method args, (handler method args).Tells id []

/-- Whether there is a hook of some kind. -/
def Hooks.has (hooks : Hooks) : HookKind → Bool
  | .step => hooks.step.isSome
  | .breakpoint => hooks.breakpoint.isSome
  | .interrupt => hooks.interrupt.isSome
  | .panic => hooks.panic.isSome

/-- Those of some calls for which there is a hook. -/
def Hooks.seen (hooks : Hooks) (calls : List Sighting) : List Sighting :=
  calls.filter fun call => hooks.has call.kind

theorem Hooks.seen_append (hooks : Hooks) (calls others : List Sighting) :
    hooks.seen (calls ++ others) = hooks.seen calls ++ hooks.seen others := List.filter_append ..

/-- A scripted hook that lists its calls tells of them. -/
theorem HookScript.tells_watch {script : HookScript} (hlog : script.log = true) {kind : HookKind}
    (hkind : kind = .step ∨ kind = .interrupt) (context : HookContext) :
    (script.watch id kind context).Tells id [context.sighting kind] := by
  refine Program.Tells.bind_done (fun n => ?_) _
  simp only [hlog, Bool.true_or, if_true]
  refine .recorded ?_ rfl hkind
  split
  · split <;> trivial
  · split <;> trivial

/-- A scripted handler tells of no hook. -/
theorem HandlerScript.tells_handler (script : HandlerScript) (vm : VmId) (method : Bytes)
    (args : List Value) : (script.handler vm method args).Tells id [] := by
  refine ⟨[], rfl, ?_⟩
  split
  · split <;> trivial
  · rfl

/-- Scripted hosts that list the calls of their hooks keep a record. -/
theorem HookScripts.watched {settings : Settings} {scripts : HookScripts}
    (hhooks : settings.hooks = scripts.hooks id)
    (hstep : ∀ script, scripts.step = some script → script.log = true)
    (hinterrupt : ∀ script, scripts.interrupt = some script → script.log = true)
    {handler : Option HandlerScript}
    (hhandler : settings.namecallHandler = handler.map fun script => script.handler id) :
    settings.Watched id where
  step hook hhook context := by
    rw [hhooks] at hhook
    obtain ⟨script, hscript, rfl⟩ := Option.map_eq_some_iff.1 hhook
    exact HookScript.tells_watch (hstep script hscript) (.inl rfl) context
  interrupt hook hhook context := by
    rw [hhooks] at hhook
    obtain ⟨script, hscript, rfl⟩ := Option.map_eq_some_iff.1 hhook
    exact HookScript.tells_watch (hinterrupt script hscript) (.inr rfl) context
  handler handle hhandle method args := by
    rw [hhandler] at hhandle
    obtain ⟨script, -, rfl⟩ := Option.map_eq_some_iff.1 hhandle
    exact script.tells_handler id method args

/-! ## Effects -/

/-- Between two states only the frame, what is not code, and the host have changed, and hooks of the
frame's machine have been called. -/
structure Running.Shows (calls : List Sighting) (s t : Running) : Prop where
  /-- The frame is one of the same machine. -/
  vm : t.frame.vm = s.frame.vm
  /-- The calls that wait are as they were. -/
  stack : t.stack = s.stack
  /-- The machine has the same settings. -/
  settings : t.settings = s.settings
  /-- The calls of its hooks are in the record. -/
  sightings : t.world.sightings s.frame.vm = s.world.sightings s.frame.vm ++ calls

namespace Running.Shows

variable {s t u : Running} {calls others : List Sighting}

theorem trans (h : s.Shows calls t) (h' : t.Shows others u) : s.Shows (calls ++ others) u where
  vm := h'.vm.trans h.vm
  stack := h'.stack.trans h.stack
  settings := h'.settings.trans h.settings
  sightings := by
    rw [← h.vm, h'.sightings, h.vm, h.sightings, List.append_assoc]

theorem of_frame (s : Running) {g : Frame} (h : g.vm = s.frame.vm) :
    s.Shows [] { s with frame := g } where
  vm := h
  stack := rfl
  settings := by
    unfold Running.settings
    rw [h]
  sightings := (List.append_nil _).symm

theorem refl (s : Running) : s.Shows [] s := .of_frame s rfl

end Running.Shows

namespace Effect

variable {α β : Type} {s : Running} {calls others : List Sighting}

theorem shows_perform {p : HookProgram α} (h : p.Tells s.frame.vm calls) :
    (perform p).Ends s fun _ t => t.frame = s.frame ∧ s.Shows calls t := by
  intro a t ht
  unfold perform at ht
  split at ht
  · rename_i w result hp
    cases ht
    have hsame := p.perform_keeps World.hosted_sameSettings s.world s.frame.vm.index
    rw [hp] at hsame
    exact ⟨rfl, rfl, rfl, hsame, h.perform hp⟩
  · cases ht

/-- Calls a hook, if there is one. -/
def callHook (hook? : Option (HookContext → HookProgram Unit)) (opcode : Opcode) : Effect Unit := do
  match hook? with
  | some hook => perform (hook (← context opcode))
  | none => pure ()

theorem shows_callHook {kind : HookKind} {hook? : Option (HookContext → HookProgram Unit)}
    (hhas : s.settings.hooks.has kind = hook?.isSome) (opcode : Opcode)
    (htells : ∀ hook, hook? = some hook →
      ∀ context, (hook context).Tells s.frame.vm [context.sighting kind]) :
    (callHook hook? opcode).Ends s fun _ t => t.frame = s.frame ∧
      s.Shows (s.settings.hooks.seen [(contextOf s.frame opcode).sighting kind]) t := by
  have hkind : ((contextOf s.frame opcode).sighting kind).kind = kind := rfl
  rw [Hooks.seen, List.filter_singleton, hkind, hhas]
  cases hook? with
  | none => exact ends_pure ⟨rfl, .refl s⟩
  | some hook => exact shows_perform (htells hook rfl _)

theorem shows_stepHook (h : s.settings.Watched s.frame.vm) (opcode : Opcode) :
    (stepHook opcode).Ends s fun _ t => t.frame = s.frame ∧
      s.Shows (s.settings.hooks.seen [(contextOf s.frame opcode).sighting .step]) t :=
  shows_callHook rfl opcode h.step

theorem shows_interrupt (h : s.settings.Watched s.frame.vm) (opcode : Opcode) :
    (interrupt opcode).Ends s fun _ t => t.frame = s.frame ∧
      s.Shows (s.settings.hooks.seen [(contextOf s.frame opcode).sighting .interrupt]) t :=
  shows_callHook rfl opcode h.interrupt

end Effect

end ScriptMachine
