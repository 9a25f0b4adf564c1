import ScriptMachine.Machine.Load

/-!
# What the host keeps

Whatever a program of the host does to the world, it does in few kinds of steps.  A relation between
worlds that each of them keeps is kept by all programs, and by the panic hook when a failure leaves
a frame.
-/

namespace ScriptMachine

/-- The machine of a module that is loaded from its bytes. -/
theorem World.createVm_of_loadBytes {w w' : World} {bytes : Bytes} {environment : Option TableId}
    {settings : Settings} {entry : Entry}
    (h : w.loadBytes bytes environment settings = .ok (entry, w')) :
    ∃ m heap, settings.toLoadOptions.load bytes w.heap = .ok (m, heap) ∧
      World.createVm { w with heap } m environment settings = (entry, w') := by
  unfold loadBytes at h
  cases hload : settings.toLoadOptions.load bytes w.heap with
  | error reason =>
    rw [hload] at h
    cases h
  | ok loaded =>
    rw [hload] at h
    exact ⟨loaded.1, loaded.2, rfl, Except.ok.inj h⟩

/-- A machine is loaded from bytes for which a check of what is loaded holds. -/
theorem World.exists_of_loadBytes {w : World} {bytes : Bytes} {environment : Option TableId}
    {settings : Settings} {check : Entry × World → Bool}
    (h : (w.loadBytes bytes environment settings).toOption.any check = true) :
    ∃ entry w', w.loadBytes bytes environment settings = .ok (entry, w') ∧
      check (entry, w') = true := by
  rcases hload : w.loadBytes bytes environment settings with reason | ⟨entry, w'⟩
  · rw [hload] at h
    cases h
  · rw [hload] at h
    exact ⟨entry, w', rfl, h⟩

/-- A machine that is loaded brings settings of its own and a closure, and nothing else that the host
has made. -/
theorem World.host_of_loadBytes {w w' : World} {bytes : Bytes} {environment : Option TableId}
    {settings : Settings} {entry : Entry}
    (h : w.loadBytes bytes environment settings = .ok (entry, w')) :
    (∀ index, (w'.vms.getD index .empty).settings = settings ∨
        (w'.vms.getD index .empty).settings = (w.vms.getD index .empty).settings) ∧
      ∀ {id body}, w'.function? id = some body →
        w.function? id = some body ∨ ∃ c, body = .closure c := by
  obtain ⟨m, heap, -, heq⟩ := createVm_of_loadBytes h
  cases heq
  constructor
  · intro index
    show ((w.vms.push _).getD index .empty).settings = _ ∨ _
    rw [Array.getD_eq_getD_getElem?, Array.getElem?_push]
    split
    · exact .inl rfl
    · exact .inr (by rw [Array.getD_eq_getD_getElem?])
  · intro id body hbody
    have hpush : (w.functions.push (.closure _))[id.index]? = some body := hbody
    rw [Array.getElem?_push] at hpush
    split at hpush
    · cases hpush
      exact .inr ⟨_, rfl⟩
    · exact .inl hpush

/-- A relation between worlds is kept by all that a program of the host can do to the world. -/
structure World.Hosted (R : World → World → Prop) : Prop where
  /-- What nothing is done to is kept. -/
  refl : ∀ w, R w w
  /-- What is kept twice is kept. -/
  trans : ∀ {u v w}, R u v → R v w → R u w
  /-- Tables change. -/
  heap : ∀ (w : World) (heap : Heap), R w { w with heap }
  /-- Something is written. -/
  write : ∀ (w : World) (bytes : Bytes), R w { w with output := w.output.push bytes }
  /-- A machine is closed. -/
  close : ∀ (w : World) (id : VmId), R w (w.close id)
  /-- A machine is given up. -/
  release : ∀ (w : World) (id : VmId), R w (w.release id)
  /-- A breakpoint is set or cleared. -/
  setBreakpoint : ∀ {w w' : World} {id : VmId} {index slot : Nat} {enabled : Bool},
    w.setBreakpoint id index slot enabled = .ok w' → R w w'
  /-- An event is recorded. -/
  record : ∀ (w : World) (event : Event), R w (w.record event)
  /-- A hook is counted. -/
  countUp : ∀ (w : World) (id : VmId) (kind : HookKind), R w (w.countUp id kind)

/-- A breakpoint that is set or cleared changes at most the module of its machine. -/
theorem World.setBreakpoint_cases {w w' : World} {id : VmId} {index slot : Nat} {enabled : Bool}
    (h : w.setBreakpoint id index slot enabled = .ok w') :
    w' = w ∨ ∃ m, w' = w.modifyVm id fun vm => { vm with module := m } := by
  unfold setBreakpoint at h
  split at h
  · rename_i vm _
    split at h
    · cases hmodule : vm.module.setBreakpoint index slot enabled with
      | error missing =>
        rw [hmodule] at h
        cases h
      | ok m =>
        rw [hmodule] at h
        cases h
        exact .inr ⟨m, rfl⟩
    · cases h
      exact .inl rfl
  · cases h
    exact .inl rfl

variable {R : World → World → Prop}

/-- A program of the host keeps what its steps keep. -/
theorem Program.settle_keeps (hR : World.Hosted R) {κ α : Type} (p : Program κ α) (w : World) :
    R w (p.settle w).1 := by
  induction p generalizing w with
  | done result => exact hR.refl w
  | fail failure => exact hR.refl w
  | call target resume => exact hR.refl w
  | get t key resume ih => exact ih _ _
  | set t key value rest ih =>
    unfold settle
    split
    · exact hR.trans (hR.heap w _) (ih _)
    · exact hR.refl w
  | next t key resume ih =>
    unfold settle
    split
    · exact ih _ _
    · exact hR.refl w
  | length t resume ih => exact ih _ _
  | write bytes rest ih => exact hR.trans (hR.write w bytes) (ih _)
  | close vm rest ih => exact hR.trans (hR.close w vm) (ih _)
  | release vm rest ih => exact hR.trans (hR.release w vm) (ih _)
  | «breakpoint» vm index slot enabled rest ih =>
    unfold settle
    split
    · rename_i w' hset
      exact hR.trans (hR.setBreakpoint hset) (ih _)
    · exact hR.refl w
  | record event rest ih => exact hR.trans (hR.record w event) (ih _)
  | count vm kind resume ih => exact hR.trans (hR.countUp w vm kind) (ih _ _)

theorem Program.perform_world {α : Type} (p : HookProgram α) (w : World) :
    (p.perform w).1 = (p.settle w).1 := by
  unfold perform
  rcases p.settle w with ⟨w', result | failure | ⟨⟨⟩, -⟩⟩ <;> rfl

theorem Program.perform_keeps (hR : World.Hosted R) {α : Type} (p : HookProgram α) (w : World) :
    R w (p.perform w).1 := p.perform_world w ▸ p.settle_keeps hR w

theorem raise_keeps (hR : World.Hosted R) (w : World) (vm : Vm) (f : Frame) (payload : Value) :
    R w (raise w vm f payload).1 := by
  unfold raise
  dsimp only
  split
  · exact hR.refl w
  · split
    all_goals
      rename_i hperform
      exact congrArg Prod.fst hperform ▸ Program.perform_keeps hR _ w

/-- All that a failure that leaves a frame does to the world is what the panic hook does. -/
theorem handle_keeps (hR : World.Hosted R) (w : World) (f : Frame) (failure : Failure) :
    R w (handle w f failure).1 := by
  unfold handle
  split
  · split
    · exact raise_keeps hR _ _ _ _
    · exact hR.refl w
  · split
    · exact raise_keeps hR _ _ _ _
    · exact hR.refl w
  · exact hR.refl w

end ScriptMachine
