import ScriptMachine.Proofs.Capture.Frames
import ScriptMachine.Proofs.Machine.Looking
import ScriptMachine.Proofs.Machine.Registers
import ScriptMachine.Proofs.Machine.Worlds

/-!
# Effects in two worlds

A switch of the settings says whether method calls are offered to the host.  An effect that does not
read the switch comes out the same with and without it, and leaves the same difference behind.  Such
an effect is *unaware* of the switch; unaware effects in sequence are unaware.

How far a register file grows for a call with an open count depends on the top of the frame.  So an
unaware effect is also to leave all tops within bounds.
-/

namespace ScriptMachine

/-- The state of a run with its world changed. -/
def Running.mapWorld (φ : World → World) (s : Running) : Running := { s with world := φ s.world }

/-- What a step has come to, with the world changed. -/
def Effect.mapWorld {α : Type} (φ : World → World) :
    EStateM.Result Failure Running α → EStateM.Result Failure Running α
  | .ok a s => .ok a (s.mapWorld φ)
  | .error failure s => .error failure (s.mapWorld φ)

/-! ## Machines that are made -/

namespace World

/-- The machine of a frame, where there is one. -/
theorem vm_of_vm? {s : Running} {vm : Vm} (h : s.world.vm? s.frame.vm = some vm) : s.vm = vm := by
  unfold vm? at h
  rw [Running.vm, Array.getD_eq_getD_getElem?, h, Option.getD_some]

/-- What can be changed in a machine that has been made, could have been made so. -/
theorem createVm_modifyVm (w : World) {n n' : Module} {environment : Option TableId}
    {settings settings' : Settings} {φ : Vm → Vm}
    (h : φ { module := n, environment, settings } =
      { module := n', environment, settings := settings' }) (hmain : n'.main = n.main) :
    w.createVm n' environment settings' =
      ((w.createVm n environment settings).1, (w.createVm n environment settings).2.modifyVm
        (w.createVm n environment settings).1.vm φ) := by
  have hpush : ∀ (vms : Array Vm) (vm : Vm),
      (vms.push vm).modify vms.size φ = vms.push (φ vm) := fun vms vm => by
    apply Array.ext_getElem?
    intro k
    rw [Array.getElem?_modify, Array.getElem?_push, Array.getElem?_push]
    by_cases hk : k = vms.size
    · rw [if_pos hk, if_pos hk, if_pos hk.symm]
      rfl
    · rw [if_neg hk, if_neg hk, if_neg (Ne.symm hk)]
  simp only [createVm, modifyVm, createFunction, hpush, h, hmain]

end World

/-! ## Worlds without the offer -/

/-- The settings with which no method call is offered to the host. -/
def Settings.unoffered (settings : Settings) : Settings :=
  { settings with useNativeNamecall := false }

/-- The machine that offers no method call. -/
def Vm.unoffered (vm : Vm) : Vm := { vm with settings := vm.settings.unoffered }

/-- The world in which a machine offers no method call. -/
def World.unoffered (id : VmId) (w : World) : World := w.modifyVm id Vm.unoffered

/-- The state of a run in whose world a machine offers no method call. -/
def Running.unoffered (id : VmId) (s : Running) : Running := s.mapWorld (World.unoffered id)

variable {id : VmId}

namespace World

theorem vm?_unoffered (w : World) (id other : VmId) : (w.unoffered id).vm? other =
    (w.vm? other).map fun vm => if id = other then vm.unoffered else vm := by
  rw [unoffered, vm?_modifyVm]
  split
  · rfl
  · cases w.vm? other <;> rfl

theorem getD_unoffered (w : World) (id other : VmId) :
    (w.unoffered id).vms.getD other.index .empty = w.vms.getD other.index .empty ∨ other = id ∧
      (w.unoffered id).vms.getD other.index .empty = (w.vms.getD other.index .empty).unoffered := by
  have hvm? := w.vm?_unoffered id other
  unfold vm? at hvm?
  rw [Array.getD_eq_getD_getElem?, hvm?, Array.getD_eq_getD_getElem?]
  cases w.vms[other.index]? with
  | none => exact .inl rfl
  | some vm =>
    simp only [Option.map_some, Option.getD_some]
    split
    · rename_i hid
      exact .inr ⟨hid.symm, rfl⟩
    · exact .inl rfl

/-- What else changes in a machine, changes there too. -/
theorem modifyVm_unoffered (w : World) (id other : VmId) {f : Vm → Vm}
    (hf : ∀ vm, f vm.unoffered = (f vm).unoffered) :
    (w.unoffered id).modifyVm other f = (w.modifyVm other f).unoffered id := by
  have hvms : (w.vms.modify id.index Vm.unoffered).modify other.index f =
      (w.vms.modify other.index f).modify id.index Vm.unoffered := by
    apply Array.ext_getElem?
    intro k
    simp only [Array.getElem?_modify]
    cases w.vms[k]? with
    | none => simp
    | some vm => by_cases hid : id.index = k <;> by_cases hother : other.index = k <;>
        simp [hid, hother, hf]
  exact congrArg (fun vms => { w with vms }) hvms

theorem close_unoffered (w : World) (other : VmId) :
    (w.unoffered id).close other = (w.close other).unoffered id :=
  w.modifyVm_unoffered id other fun _ => rfl

theorem release_unoffered (w : World) (other : VmId) :
    (w.unoffered id).release other = (w.release other).unoffered id :=
  w.modifyVm_unoffered id other fun _ => rfl

theorem setBreakpoint_unoffered (w : World) (other : VmId) (index slot : Nat) (enabled : Bool) :
    (w.unoffered id).setBreakpoint other index slot enabled =
      (w.setBreakpoint other index slot enabled).map (unoffered id) := by
  unfold setBreakpoint
  rw [vm?_unoffered]
  cases w.vm? other with
  | none => rfl
  | some vm =>
    have hmodule : (if id = other then vm.unoffered else vm).module = vm.module := by
      split <;> rfl
    have hheld : (if id = other then vm.unoffered else vm).held = vm.held := by
      split <;> rfl
    simp only [Option.map_some, hmodule, hheld]
    split
    · cases vm.module.setBreakpoint index slot enabled with
      | error missing => rfl
      | ok m => exact congrArg Except.ok (w.modifyVm_unoffered id other fun _ => rfl)
    · rfl

end World

/-- Programs of the host cannot tell whether method calls are offered. -/
theorem Program.settle_unoffered {κ α : Type} (p : Program κ α) (w : World) :
    p.settle (w.unoffered id) = ((p.settle w).1.unoffered id, (p.settle w).2) := by
  induction p generalizing w with
  | done result => rfl
  | fail failure => rfl
  | call target resume => rfl
  | get t key resume ih => exact ih _ w
  | set t key value rest ih =>
    unfold settle
    rw [show (w.unoffered id).heap = w.heap from rfl]
    cases w.heap.set t key value with
    | error f => rfl
    | ok heap => exact ih { w with heap }
  | next t key resume ih =>
    unfold settle
    rw [show (w.unoffered id).heap = w.heap from rfl]
    cases w.heap.next t key with
    | error f => rfl
    | ok pair => exact ih pair w
  | length t resume ih => exact ih _ w
  | write bytes rest ih => exact ih { w with output := w.output.push bytes }
  | close other rest ih =>
    unfold settle
    rw [World.close_unoffered]
    exact ih _
  | release other rest ih =>
    unfold settle
    rw [World.release_unoffered]
    exact ih _
  | «breakpoint» other index slot enabled rest ih =>
    unfold settle
    rw [World.setBreakpoint_unoffered]
    cases w.setBreakpoint other index slot enabled with
    | error missing => rfl
    | ok w' => exact ih w'
  | record event rest ih => exact ih (w.record event)
  | count other kind resume ih => exact ih _ (w.countUp other kind)

theorem Program.perform_unoffered {α : Type} (p : HookProgram α) (w : World) :
    p.perform (w.unoffered id) = ((p.perform w).1.unoffered id, (p.perform w).2) := by
  unfold perform
  rw [p.settle_unoffered]
  rcases p.settle w with ⟨w', result | failure | ⟨target, resume⟩⟩
  · rfl
  · rfl
  · cases target

/-! ## Tops within bounds -/

/-- The top of a frame is one of its registers, or not beyond the last one to which a loop sets it.
That is six behind a byte operand, whether there is such a register or not. -/
def Frame.Topped (f : Frame) : Prop := f.top < max f.registers.size 262

/-- The tops of all frames of a machine are. -/
def Running.Topped (id : VmId) (s : Running) : Prop := ∀ f ∈ s.frames, f.vm = id → f.Topped

/-- A register file with the same top that has grown. -/
theorem Frame.Topped.of_size_le {f g : Frame} (h : f.Topped) (htop : g.top = f.top)
    (hsize : f.registers.size ≤ g.registers.size) : g.Topped := by
  unfold Topped at h ⊢
  omega

namespace Running.Topped

variable {s : Running}

theorem of_frame (h : s.Topped id) (w : World) {f : Frame} (hvm : f.vm = s.frame.vm)
    (hf : f.vm = id → s.frame.Topped → f.Topped) : Topped id ⟨w, f, s.stack⟩ := by
  intro g hg hid
  rcases List.mem_cons.1 hg with rfl | hg
  · exact hf hid (h _ List.mem_cons_self (hvm.symm.trans hid))
  · exact h g (List.mem_cons_of_mem _ hg) hid

theorem of_world (h : s.Topped id) (w : World) : Topped id ⟨w, s.frame, s.stack⟩ := h

end Running.Topped

/-! ## Unaware effects -/

namespace Effect

variable {α β : Type} {s : Running}

/-- An effect on a state comes out the same where no method call is offered, and leaves all tops
within bounds. -/
structure UnawareAt (id : VmId) (s : Running) (x : Effect α) : Prop where
  /-- It comes out the same. -/
  same : x (s.unoffered id) = mapWorld (World.unoffered id) (x s)
  /-- The tops are left within bounds. -/
  topped : s.Topped id → (x.after s).Topped id

/-- An effect is unaware of the offer on all states. -/
def Unaware (id : VmId) (x : Effect α) : Prop := ∀ s, UnawareAt id s x

theorem UnawareAt.bind {x : Effect α} {f : α → Effect β} (hx : UnawareAt id s x)
    (hf : ∀ a t, x s = .ok a t → UnawareAt id t (f a)) : UnawareAt id s (x >>= f) := by
  obtain ⟨hsame, htopped⟩ := hx
  unfold after at htopped
  cases hxs : x s with
  | ok a t =>
    rw [hxs] at hsame htopped
    obtain ⟨hsame', htopped'⟩ := hf a t hxs
    refine ⟨?_, fun hs => ?_⟩
    · rw [bind_of_ok hsame, bind_of_ok hxs]
      exact hsame'
    · unfold after
      rw [bind_of_ok hxs]
      exact htopped' (htopped hs)
  | error failure t =>
    rw [hxs] at hsame htopped
    refine ⟨?_, fun hs => ?_⟩
    · rw [bind_of_error hsame, bind_of_error hxs]
      rfl
    · unfold after
      rw [bind_of_error hxs]
      exact htopped hs

theorem Unaware.bind {x : Effect α} {f : α → Effect β} (hx : Unaware id x)
    (hf : ∀ a, Unaware id (f a)) : Unaware id (x >>= f) :=
  fun s => (hx s).bind fun a t _ => hf a t

theorem Unaware.ite {c : Prop} [Decidable c] {x y : Effect α} (hx : Unaware id x)
    (hy : Unaware id y) : Unaware id (if c then x else y) := by
  split
  · exact hx
  · exact hy

/-- An effect that only reads what is there in either case. -/
theorem unaware_of_reads {x : Effect α}
    (h : ∀ s, ∃ a, x s = .ok a s ∧ x (s.unoffered id) = .ok a (s.unoffered id)) : Unaware id x := by
  intro s
  obtain ⟨a, hs, hs'⟩ := h s
  refine ⟨?_, fun htopped => ?_⟩
  · rw [hs, hs']
    rfl
  · unfold after
    rw [hs]
    exact htopped

/-- An effect that leaves the frames alone. -/
theorem unaware_of_world {x : Effect α}
    (h : ∀ s, x (s.unoffered id) = mapWorld (.unoffered id) (x s))
    (hframe : ∀ s, (x.after s).frame = s.frame) (hstack : ∀ s, (x.after s).stack = s.stack) :
    Unaware id x := by
  refine fun s => ⟨h s, fun hs f hf => ?_⟩
  unfold Running.frames at hf
  rw [hframe, hstack] at hf
  exact hs f hf

theorem unaware_pure (a : α) : Unaware id (pure a : Effect α) :=
  unaware_of_reads fun _ => ⟨_, rfl, rfl⟩

theorem unaware_throw (failure : Failure) : Unaware id (throw failure : Effect α) :=
  unaware_of_world (fun _ => rfl) (fun _ => rfl) fun _ => rfl

theorem unaware_fault (f : Fault) : Unaware id (fault f : Effect α) := unaware_throw _

theorem unaware_ofExcept (e : Except Fault α) : Unaware id (ofExcept e) := by
  cases e with
  | ok a => exact unaware_pure a
  | error f => exact unaware_fault f

/-! ## The frame -/

theorem unaware_modifyFrame {f : Frame → Frame} (hvm : ∀ g, (f g).vm = g.vm)
    (htopped : ∀ g : Frame, g.Topped → (f g).Topped) : Unaware id (modifyFrame f) :=
  fun s => ⟨rfl, fun hs => hs.of_frame s.world (hvm _) fun _ => htopped _⟩

/-- Registers and tops matter for no bound but the size of the register file. -/
theorem unaware_modifyFrame_of_size {f : Frame → Frame} (hvm : ∀ g, (f g).vm = g.vm)
    (htop : ∀ g, (f g).top = g.top) (hsize : ∀ g, (f g).registers.size = g.registers.size) :
    Unaware id (modifyFrame f) :=
  unaware_modifyFrame hvm fun g hg => hg.of_size_le (htop g) (hsize g).ge

theorem unaware_register (slot : Nat) : Unaware id (register slot) :=
  unaware_of_reads fun _ => ⟨_, rfl, rfl⟩

theorem unaware_put (slot : Nat) (value : Value) : Unaware id (put slot value) :=
  unaware_modifyFrame_of_size (fun _ => rfl) (fun _ => rfl) fun _ => Frame.size_put

theorem unaware_putAll (first : Nat) (values : List Value) :
    Unaware id (modifyFrame fun f => f.putAll first values) :=
  unaware_modifyFrame_of_size (fun f => (f.sameCall_putAll _ _).vm) (fun _ => Frame.top_putAll)
    fun _ => Frame.size_putAll

theorem unaware_jump (distance : Int) : Unaware id (jump distance) :=
  unaware_modifyFrame_of_size (fun _ => rfl) (fun _ => rfl) fun _ => rfl

theorem unaware_context (opcode : Opcode) : Unaware id (context opcode) :=
  unaware_of_reads fun _ => ⟨_, rfl, rfl⟩

theorem unaware_countFrom (first field : Nat) : Unaware id (countFrom first field) :=
  unaware_of_reads fun _ => ⟨_, rfl, rfl⟩

/-- What is read of the state is the same. -/
theorem Unaware.get_bind {f : Running → Effect α} (hsame : ∀ s, f (s.unoffered id) = f s)
    (hf : ∀ s, Unaware id (f s)) : Unaware id (get >>= f) := by
  intro s
  refine ⟨?_, (hf s s).topped⟩
  show f (s.unoffered id) (s.unoffered id) = _
  rw [hsame]
  exact (hf s s).same

/-! ## The machine -/

/-- The machine of the frame is the same, or the one that offers no method call. -/
theorem vm_unoffered (id : VmId) (s : Running) :
    (s.unoffered id).vm = s.vm ∨ s.frame.vm = id ∧ (s.unoffered id).vm = s.vm.unoffered :=
  s.world.getD_unoffered id s.frame.vm

/-- What does not depend on the switch is the same. -/
theorem Unaware.vm_bind {f : Vm → Effect α} (hsame : ∀ vm : Vm, f vm.unoffered = f vm)
    (hf : ∀ vm, Unaware id (f vm)) : Unaware id (vm >>= f) := by
  intro s
  refine ⟨?_, (hf s.vm s).topped⟩
  show f (s.unoffered id).vm (s.unoffered id) = _
  have hvm : f (s.unoffered id).vm = f s.vm := by
    rcases vm_unoffered id s with h | ⟨-, h⟩
    · rw [h]
    · rw [h, hsame]
  rw [hvm]
  exact (hf s.vm s).same

theorem Unaware.settings_bind {f : Settings → Effect α}
    (hsame : ∀ settings : Settings, f settings.unoffered = f settings)
    (hf : ∀ settings, Unaware id (f settings)) : Unaware id (settings >>= f) :=
  Unaware.vm_bind (f := fun vm => f vm.settings) (fun vm => hsame vm.settings) fun _ => hf _

theorem Unaware.prototype_bind {f : Prototype → Effect α} (hf : ∀ p, Unaware id (f p)) :
    Unaware id (prototype >>= f) :=
  Unaware.vm_bind (f := fun vm => get >>= fun s => f (vm.prototype s.frame.prototype))
    (fun _ => rfl) fun _ => Unaware.get_bind (fun _ => rfl) fun _ => hf _

theorem unaware_ensure (size : Nat) : Unaware id (ensure size) := by
  refine Unaware.settings_bind (fun _ => rfl) fun settings s => ?_
  cases hgrown : s.frame.ensure? size settings.maxRegisters with
  | none =>
    have hgrown' : (s.unoffered id).frame.ensure? size settings.maxRegisters = none := hgrown
    constructor
    · simp only [hgrown, hgrown']
      rfl
    · intro hs
      unfold after
      simp only [hgrown]
      exact hs
  | some g =>
    have hgrown' : (s.unoffered id).frame.ensure? size settings.maxRegisters = some g := hgrown
    constructor
    · simp only [hgrown, hgrown']
      rfl
    · intro hs
      have hg := Frame.grown_ensure? hgrown
      unfold after
      simp only [hgrown]
      exact hs.of_frame s.world hg.sameCall.vm fun _ h => h.of_size_le hg.top hg.size_le

/-! ## The host -/

theorem unaware_perform (p : HookProgram α) : Unaware id (perform p) := by
  refine unaware_of_world (fun s => ?_) (fun s => ?_) fun s => ?_
  · unfold perform
    rw [show (s.unoffered id).world = s.world.unoffered id from rfl, p.perform_unoffered]
    rcases p.perform s.world with ⟨w, failure | result⟩ <;> rfl
  · rw [after_perform]
  · rw [after_perform]

theorem unaware_stepHook (opcode : Opcode) : Unaware id (stepHook opcode) := by
  refine Unaware.settings_bind (fun _ => rfl) fun settings => ?_
  split
  · exact (unaware_context _).bind fun _ => unaware_perform _
  · exact unaware_pure _

theorem unaware_interrupt (opcode : Opcode) : Unaware id (interrupt opcode) := by
  refine Unaware.settings_bind (fun _ => rfl) fun settings => ?_
  split
  · exact (unaware_context _).bind fun _ => unaware_perform _
  · exact unaware_pure _

/-! ## Tables and captured variables -/

theorem unaware_getKey (t : TableId) (key : Value) : Unaware id (getKey t key) :=
  unaware_of_reads fun _ => ⟨_, rfl, rfl⟩

theorem unaware_setKey (t : TableId) (key value : Value) : Unaware id (setKey t key value) := by
  refine unaware_of_world (fun s => ?_) (fun s => ?_) fun s => ?_
  · unfold setKey
    rw [show (s.unoffered id).world.heap = s.world.heap from rfl]
    cases s.world.heap.set t key value <;> rfl
  · unfold after setKey
    cases s.world.heap.set t key value <;> rfl
  · unfold after setKey
    cases s.world.heap.set t key value <;> rfl

theorem unaware_createTable : Unaware id createTable :=
  unaware_of_world (fun _ => rfl) (fun _ => rfl) fun _ => rfl

theorem unaware_readCell (cell : CellId) : Unaware id (readCell cell) := by
  refine unaware_of_reads fun s => ?_
  unfold readCell
  rw [show (s.unoffered id).world.cells = s.world.cells from rfl]
  cases s.world.cells.cell cell with
  | closed value => exact ⟨value, rfl, rfl⟩
  | «open» frame slot =>
    dsimp only
    rw [show (s.unoffered id).frame = s.frame from rfl,
      show (s.unoffered id).stack = s.stack from rfl]
    split
    · exact ⟨_, rfl, rfl⟩
    · cases s.stack.frame? frame <;> exact ⟨_, rfl, rfl⟩

theorem unaware_closedCell (value : Value) : Unaware id (closedCell value) :=
  unaware_of_world (fun _ => rfl) (fun _ => rfl) fun _ => rfl

theorem unaware_createClosure (index : Nat) (upvalues : Array CellId) :
    Unaware id (createClosure index upvalues) :=
  unaware_of_world (fun _ => rfl) (fun _ => rfl) fun _ => rfl

theorem unaware_upvalue (index : Nat) : Unaware id (upvalue index) := by
  refine unaware_of_world (fun s => ?_) (fun s => ?_) fun s => ?_
  · unfold upvalue
    rw [show (s.unoffered id).frame = s.frame from rfl]
    cases s.frame.upvalues[index]? <;> rfl
  · unfold after upvalue
    cases s.frame.upvalues[index]? <;> rfl
  · unfold after upvalue
    cases s.frame.upvalues[index]? <;> rfl

theorem unaware_captureRegister (slot : Nat) : Unaware id (captureRegister slot) := by
  refine fun s => ⟨rfl, fun hs => hs.of_frame _ rfl fun _ h => h.of_size_le rfl ?_⟩
  show s.frame.registers.size ≤ (s.frame.toScope.capture s.world.cells slot).2.1.registers.size
  unfold Scope.capture
  split <;> exact le_rfl

theorem unaware_closeFrom (slot : Nat) : Unaware id (closeFrom slot) :=
  fun _ => ⟨rfl, fun hs => hs.of_frame _ rfl fun _ h => h.of_size_le rfl le_rfl⟩

theorem unaware_writeCell (cell : CellId) (value : Value) : Unaware id (writeCell cell value) := by
  intro s
  constructor
  · unfold writeCell
    rw [show (s.unoffered id).world.cells = s.world.cells from rfl]
    cases s.world.cells.cell cell with
    | closed old => rfl
    | «open» frame slot =>
      dsimp only
      rw [show (s.unoffered id).frame = s.frame from rfl]
      split <;> rfl
  · intro hs
    unfold after writeCell
    cases s.world.cells.cell cell with
    | closed old => exact hs
    | «open» frame slot =>
      dsimp only
      split
      · exact hs.of_frame _ rfl fun _ h => h.of_size_le rfl Frame.size_put.ge
      · -- the frames that wait have the same machines, tops and sizes
        have hsame := Running.map_frames_putRegister
          (g := fun f => (f.vm, f.top, f.registers.size))
          (fun _ _ _ => Prod.ext rfl (Prod.ext rfl Frame.size_put)) s.stack frame slot value
        intro f hf hid
        rcases List.mem_cons.1 hf with rfl | hf
        · exact hs _ List.mem_cons_self hid
        · obtain ⟨g, hg, hgf⟩ := List.mem_map.1 (hsame ▸ List.mem_map_of_mem hf)
          simp only [Prod.mk.injEq] at hgf
          obtain ⟨hvm, htop, hsize⟩ := hgf
          have hgtopped := hs g (List.mem_cons_of_mem _ hg) (hvm.trans hid)
          exact hgtopped.of_size_le htop.symm hsize.le

/-! ## The same look-up in two worlds -/

section Looking

variable {s s' : Running}

/-- Two states look globals and fields up alike. -/
structure LooksAlike (s s' : Running) : Prop where
  /-- The tables are the same. -/
  heap : s'.world.heap = s.world.heap
  /-- The environment is. -/
  environment : s'.vm.environment = s.vm.environment
  /-- The extensions are. -/
  extensions : s'.vm.settings.extensions = s.vm.settings.extensions
  /-- The methods of strings are. -/
  stringMethods : s'.vm.settings.stringMethods = s.vm.settings.stringMethods
  /-- The vectors are. -/
  vectorSize : s'.vm.settings.vectorSize = s.vm.settings.vectorSize

/-- Two states come to the same result, or fault, and stay as they are. -/
def Reads (x : Effect Value) (s s' : Running) : Prop :=
  ∃ found : Except Fault Value, x s = ofExcept found s ∧ x s' = ofExcept found s'

theorem Reads.pure (value : Value) (s s' : Running) : Reads (Pure.pure value) s s' :=
  ⟨.ok value, rfl, rfl⟩

theorem Reads.bind {x : Effect Value} {f : Value → Effect Value} (h : Reads x s s')
    (hf : ∀ value, Reads (f value) s s') : Reads (x >>= f) s s' := by
  obtain ⟨fault | value, hx, hx'⟩ := h
  · exact ⟨.error fault, bind_of_error hx, bind_of_error hx'⟩
  · obtain ⟨found, hfound, hfound'⟩ := hf value
    exact ⟨found, (bind_of_ok hx).trans hfound, (bind_of_ok hx').trans hfound'⟩

namespace LooksAlike

variable (h : LooksAlike s s')

include h

theorem getKey (t : TableId) (key : Value) : Reads (Effect.getKey t key) s s' := by
  refine ⟨.ok (s.world.heap.get t key), rfl, ?_⟩
  unfold Effect.getKey
  rw [h.heap]
  rfl

theorem getGlobal (key : Value) : Reads (Effect.getGlobal key) s s' := by
  have hrest : ∀ (global : Effect Value), Reads global s s' → ∀ extension : Value,
      Reads (if !extension.isNil then Pure.pure extension else global) s s' := by
    intro global hglobal extension
    split
    · exact .pure _ _ _
    · exact hglobal
  unfold Reads Effect.getGlobal
  simp only [vm_bind, h.extensions, h.environment]
  cases s.vm.environment with
  | none =>
    cases s.vm.settings.extensions with
    | none => exact (Reads.pure _ _ _).bind (hrest _ (.pure _ _ _))
    | some t => exact (h.getKey t key).bind (hrest _ (.pure _ _ _))
  | some globals =>
    cases s.vm.settings.extensions with
    | none => exact (Reads.pure _ _ _).bind (hrest _ (h.getKey globals key))
    | some t => exact (h.getKey t key).bind (hrest _ (h.getKey globals key))

theorem getField (object key : Value) : Reads (Effect.getField object key) s s' := by
  unfold Reads Effect.getField
  simp only [settings_bind, h.stringMethods, h.vectorSize]
  change Reads _ s s'
  split
  · exact h.getKey _ _
  · exact h.getKey _ _
  · split
    · exact ⟨.ok _, rfl, rfl⟩
    · exact ⟨.error _, rfl, rfl⟩
  · exact ⟨.error _, rfl, rfl⟩

end LooksAlike

end Looking

end Effect

end ScriptMachine
