import ScriptMachine.Proofs.Machine.Outcomes
import ScriptMachine.Proofs.Machine.Worlds

/-!
# Closing a machine

A machine that the host closes stays closed, whatever the run and the host do afterwards.  So from
then on none of its frames runs another instruction, and its closures can be called no more: those
frames end without results as they are reached, but for one whose instruction is just returning.
-/

namespace ScriptMachine

/-! ## Closed machines -/

/-- The world has a machine that is not alive. -/
def World.Closed (w : World) (id : VmId) : Prop := ∃ vm, w.vm? id = some vm ∧ vm.alive = false

/-- A change never brings a machine back to life. -/
theorem Vm.Evolves.alive {vm vm' : Vm} (h : vm.Evolves vm') (hclosed : vm.alive = false) :
    vm'.alive = false := by
  induction h with
  | refl => exact hclosed
  | tail _ change ih => cases change <;> simp [ih]

theorem World.Evolves.closed {w w' : World} {id : VmId} (h : w.Evolves w') (hw : w.Closed id) :
    w'.Closed id := by
  obtain ⟨vm, hvm, hclosed⟩ := hw
  obtain ⟨vm', hvm', hchanged⟩ := h.machine hvm
  exact ⟨vm', hvm', hchanged.alive hclosed⟩

/-- The host holds a machine. -/
def World.Holds (w : World) (id : VmId) : Prop := ∃ vm, w.vm? id = some vm ∧ vm.held = true

theorem World.closed_close {w : World} {id : VmId} (h : w.Holds id) : (w.close id).Closed id := by
  obtain ⟨vm, hvm, hheld⟩ := h
  refine ⟨{ vm with alive := vm.alive && !vm.held }, ?_, ?_⟩
  · unfold World.vm? at hvm
    simp only [vm?, close, modifyVm, Array.getElem?_modify, hvm, if_true, Option.map_some]
  · simp [hheld]

/-- On its way to its end or its next call, a program of the host closes a machine that the host
holds. -/
def Program.Closes {κ α : Type} (id : VmId) : Program κ α → World → Prop
  | done _, _ | fail _, _ | call _ _, _ => False
  | get t key resume, w => (resume (w.heap.get t key)).Closes id w
  | set t key value rest, w =>
    match w.heap.set t key value with
    | .ok heap => rest.Closes id { w with heap }
    | .error _ => False
  | next t key resume, w =>
    match w.heap.next t key with
    | .ok pair => (resume pair).Closes id w
    | .error _ => False
  | length t resume, w => (resume (w.heap.length t)).Closes id w
  | write bytes rest, w => rest.Closes id { w with output := w.output.push bytes }
  | close vm rest, w => (vm = id ∧ w.Holds id) ∨ rest.Closes id (w.close vm)
  | release vm rest, w => rest.Closes id (w.release vm)
  | breakpoint vm index slot enabled rest, w =>
    match w.setBreakpoint vm index slot enabled with
    | .ok w => rest.Closes id w
    | .error _ => False
  | record event rest, w => rest.Closes id (w.record event)
  | count vm kind resume, w =>
    (resume ((w.countUp vm kind).countOf vm kind)).Closes id (w.countUp vm kind)

/-- A program that closes a machine leaves it closed, whatever it does afterwards. -/
theorem Program.Closes.closed {κ α : Type} {id : VmId} {p : Program κ α} {w : World}
    (h : p.Closes id w) : (p.settle w).1.Closed id := by
  induction p generalizing w with
  | done result => exact h.elim
  | fail failure => exact h.elim
  | call target resume => exact h.elim
  | get t key resume ih => exact ih _ h
  | set t key value rest ih =>
    unfold Closes at h
    unfold settle
    cases hresult : w.heap.set t key value with
    | ok result =>
      simp only [hresult] at h ⊢
      exact ih h
    | error reason =>
      simp only [hresult] at h
  | next t key resume ih =>
    unfold Closes at h
    unfold settle
    cases hresult : w.heap.next t key with
    | ok result =>
      simp only [hresult] at h ⊢
      exact ih _ h
    | error reason =>
      simp only [hresult] at h
  | length t resume ih => exact ih _ h
  | write bytes rest ih => exact ih h
  | close vm rest ih =>
    rcases h with ⟨rfl, hheld⟩ | h
    · exact (rest.settle_evolves _).closed (World.closed_close hheld)
    · exact ih h
  | release vm rest ih => exact ih h
  | «breakpoint» vm index slot enabled rest ih =>
    unfold Closes at h
    unfold settle
    cases hresult : w.setBreakpoint vm index slot enabled with
    | ok result =>
      simp only [hresult] at h ⊢
      exact ih h
    | error reason =>
      simp only [hresult] at h
  | record event rest ih => exact ih h
  | count vm kind resume ih => exact ih _ h

/-! ## Everything that comes later -/

/-- What the host can do with a world between calls. -/
inductive World.Acts (w : World) : World → Prop where
  /-- It does what its programs can do, such as closing a machine. -/
  | performs {κ α : Type} (p : Program κ α) : Acts w (p.settle w).1
  /-- It loads a module from its bytes. -/
  | loads {bytes : Bytes} {environment : Option TableId} {settings : Settings} {entry : Entry}
    {w' : World} (h : w.loadBytes bytes environment settings = .ok (entry, w')) : Acts w w'
  /-- It makes a machine for a module. -/
  | creates (module : Module) (environment : Option TableId) (settings : Settings) :
    Acts w (w.createVm module environment settings).2
  /-- It makes a function. -/
  | makes (body : FunctionBody) : Acts w (w.createFunction body).2
  /-- It makes and changes tables. -/
  | stores (heap : Heap) : Acts w { w with heap }
  /-- It sets the hits of a machine to zero. -/
  | resets (id : VmId) : Acts w (w.resetCoverage id)

theorem World.Acts.evolves {w w' : World} (h : w.Acts w') : w.Evolves w' := by
  cases h with
  | performs p => exact p.settle_evolves w
  | loads h =>
    obtain ⟨m, heap, -, heq⟩ := World.createVm_of_loadBytes h
    obtain rfl : _ = w' := congrArg Prod.snd heq
    have hstored : w.Evolves { w with heap } := .of_same rfl rfl
    exact hstored.trans (World.evolves_createVm _ _ _ _)
  | creates module environment settings => exact w.evolves_createVm _ _ _
  | makes body => exact w.evolves_createFunction body
  | stores heap => exact .of_same rfl rfl
  | resets id => exact w.evolves_modifyVm id fun _ _ => .reset

namespace Machine

/-- One moment comes directly after another one: by a step of the run, or, when that has ended, by
what the host does next. -/
inductive Next (m : Machine) : Machine → Prop where
  /-- The run goes on. -/
  | step : Next m m.step
  /-- The host acts between calls. -/
  | acts {outcome : Except Failure (List Value)} {w : World} (ended : m.outcome? = some outcome)
    (h : m.world.Acts w) : Next m { m with world := w }
  /-- The host makes another call. -/
  | calls {outcome : Except Failure (List Value)} (ended : m.outcome? = some outcome)
    (function : Value) (args : List Value) : Next m (.start m.world function args)

/-- One moment is another one or comes after it. -/
abbrev Later : Machine → Machine → Prop := Relation.ReflTransGen Next

theorem Later.evolves {m n : Machine} (h : m.Later n) : m.world.Evolves n.world := by
  induction h with
  | refl => rfl
  | tail _ next ih =>
    refine ih.trans ?_
    cases next with
    | step => exact step_evolves _
    | acts _ hacts => exact hacts.evolves
    | calls _ function args => rfl

/-! ## Runs of closed machines -/

/-- The call of a closure that the next step begins. -/
def calling? (m : Machine) : Option (Closure × List Value) :=
  match m.control with
  | .call (.function id) args =>
    match m.world.function? id with
    | some (.closure c) => some (c, args)
    | _ => none
  | _ => none

theorem step_of_calling {m : Machine} {c : Closure} {args : List Value} {vm : Vm}
    (h : m.calling? = some (c, args)) (hvm : m.world.vm? c.vm = some vm) :
    m.step = enter m.world m.stack c vm args := by
  obtain ⟨w, stack, control⟩ := m
  unfold calling? at h
  split at h
  · rename_i id args' hcontrol
    split at h
    · rename_i c' hfunction
      cases h
      cases hcontrol
      unfold World.vm? at hvm
      show call w stack (.function id) args = _
      unfold call
      simp only [hfunction, Array.getD_eq_getD_getElem?, hvm, Option.getD_some]
    · cases h
  · cases h

variable {m : Machine} {id : VmId}

/-- A frame stays one of its machine. -/
theorem steady_vm : Effect.Steady fun s t => t.frame.vm = s.frame.vm where
  refl s := rfl
  trans h h' := h'.trans h
  fault s f := rfl
  frame s f hf _ := hf.vm
  moved s pc := rfl
  setIterator s slot bridge := rfl
  dropIterator s slot := rfl
  heap s heap := rfl
  perform s p _ := rfl
  countHit s := rfl
  confusion s := rfl
  trace s line := rfl
  writeCell id value s := by
    unfold Effect.after Effect.writeCell
    split
    · rfl
    · split <;> rfl
  closedCell value s := rfl
  captureRegister slot s := rfl
  closeFrom slot s := rfl
  createClosure index upvalues s := rfl

end Machine

end ScriptMachine
