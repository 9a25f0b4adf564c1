import ScriptMachine.Machine.Step
import ScriptMachine.Proofs.Machine.Hosts

/-!
# What operations keep

An operation is put together from few basic effects, and what each of these keeps, whatever the
state and whether it succeeds or fails, every operation keeps.  A relation between states says what
is kept: it is to hold between the state before a basic effect and the state after it, and to be
reflexive and transitive.  Most operations leave the position of the frame in its code to what comes
after them; these keep also what a move of the frame does not.  Only one operation counts a hit, and
the host acts only through the programs that the settings of a machine offer.
-/

namespace ScriptMachine

/-! ## One call going on -/

/-- Two frames are the same call at two moments: its registers and its position may differ. -/
structure Frame.SameCall (f g : Frame) : Prop where
  /-- The register file is the same one. -/
  id : g.id = f.id
  /-- The same cells are listed. -/
  captured : g.captured = f.captured
  /-- It is run by the same machine. -/
  vm : g.vm = f.vm
  /-- The code is the same. -/
  prototype : g.prototype = f.prototype
  /-- The captured variables of the closure are the same. -/
  upvalues : g.upvalues = f.upvalues
  /-- The extra arguments are the same. -/
  varargs : g.varargs = f.varargs
  /-- The traversals that drive loops are the same. -/
  iterators : g.iterators = f.iterators

namespace Frame

variable (f : Frame)

theorem sameCall_refl : f.SameCall f := ⟨rfl, rfl, rfl, rfl, rfl, rfl, rfl⟩

theorem sameCall_put (slot : Nat) (value : Value) : f.SameCall (f.put slot value) :=
  ⟨rfl, rfl, rfl, rfl, rfl, rfl, rfl⟩

/-- A call that stands elsewhere in its code is the same call. -/
theorem sameCall_moved (pc current : Nat) (top : Int) :
    f.SameCall { f with pc, current, top } := ⟨rfl, rfl, rfl, rfl, rfl, rfl, rfl⟩

theorem SameCall.trans {f g h : Frame} (hfg : f.SameCall g) (hgh : g.SameCall h) :
    f.SameCall h :=
  ⟨hgh.id.trans hfg.id, hgh.captured.trans hfg.captured, hgh.vm.trans hfg.vm,
    hgh.prototype.trans hfg.prototype, hgh.upvalues.trans hfg.upvalues,
    hgh.varargs.trans hfg.varargs, hgh.iterators.trans hfg.iterators⟩

theorem sameCall_putAll (first : Nat) (values : List Value) :
    f.SameCall (f.putAll first values) := by
  induction values generalizing f first with
  | nil => exact f.sameCall_refl
  | cons value values ih => exact (f.sameCall_put first value).trans (ih _ _)

@[simp] theorem pc_putAll {first : Nat} {values : List Value} :
    (f.putAll first values).pc = f.pc := by
  induction values generalizing f first with
  | nil => rfl
  | cons value values ih => exact ih _

theorem sameCall_ensure? {size limit : Nat} {g : Frame} (h : f.ensure? size limit = some g) :
    f.SameCall g := by
  unfold ensure? at h
  split at h
  · cases h
    exact f.sameCall_refl
  · split at h
    · cases h
    · cases h
      exact ⟨rfl, rfl, rfl, rfl, rfl, rfl, rfl⟩

theorem pc_ensure? {size limit : Nat} {g : Frame} (h : f.ensure? size limit = some g) :
    g.pc = f.pc := by
  unfold ensure? at h
  split at h
  · cases h
    rfl
  · split at h
    · cases h
    · cases h
      rfl

end Frame

/-! ## Where operations leave the position -/

/-- How an operation treats the position, which stands behind the word of its instruction. -/
inductive Motion where
  /-- It leaves the position alone. -/
  | stays
  /-- It moves past the auxiliary word. -/
  | passes
  /-- It decides where the run goes on. -/
  | leads

/-- How an operation treats the position. -/
def Opcode.motion : Opcode → Motion
  | .fastCall2 | .fastCall2Constant | .fastCall3 | .loadConstantExtended | .getGlobal | .setGlobal
  | .getImport | .getField | .setField | .newTable | .setList => .passes
  | .loadBoolean | .newClosure | .dupClosure | .namecall | .jump | .jumpBack | .jumpExtended
  | .jumpIf | .jumpIfNot | .jumpIfEqual | .jumpIfLessEqual | .jumpIfLess | .jumpIfNotEqual
  | .jumpIfNotLessEqual | .jumpIfNotLess | .jumpIfNil | .jumpIfBoolean | .jumpIfNumber
  | .jumpIfString | .numericPrep | .numericLoop | .genericPrep | .genericPrepIndexed
  | .genericPrepNext | .genericLoop => .leads
  | _ => .stays

/-! ## Programs of the host -/

/-- A program that the host runs for a machine with some settings: a hook with what it sees, or the
handler of method calls with a call. -/
inductive Settings.Offers (settings : Settings) : {α : Type} → HookProgram α → Prop where
  /-- The step hook. -/
  | step {hook : HookContext → HookProgram Unit} (h : settings.hooks.step = some hook)
    (context : HookContext) : Offers settings (hook context)
  /-- The hook of breakpoints. -/
  | breakpoint {hook : HookContext → HookProgram (Option (List Value))}
    (h : settings.hooks.breakpoint = some hook) (context : HookContext) :
    Offers settings (hook context)
  /-- The interrupt hook. -/
  | interrupt {hook : HookContext → HookProgram Unit} (h : settings.hooks.interrupt = some hook)
    (context : HookContext) : Offers settings (hook context)
  /-- The panic hook. -/
  | panic {hook : Bytes → Value → HookContext → HookProgram Unit}
    (h : settings.hooks.panic = some hook) (message : Bytes) (error : Value)
    (context : HookContext) : Offers settings (hook message error context)
  /-- The handler of method calls. -/
  | method {handler : Bytes → List Value → HookProgram (Option (List Value))}
    (h : settings.namecallHandler = some handler) (name : Bytes) (args : List Value) :
    Offers settings (handler name args)

/-- Without hooks and a handler nothing is offered. -/
theorem Settings.not_offers {settings : Settings} (hooks : settings.hooks = {})
    (handler : settings.namecallHandler = none) {α : Type} {p : HookProgram α} :
    ¬ settings.Offers p := by
  intro hp
  cases hp with
  | step h | «breakpoint» h | interrupt h | panic h => simp [hooks] at h
  | method h => simp [handler] at h

/-- The settings of the frame's machine. -/
def Running.settings (s : Running) : Settings :=
  (s.world.vms.getD s.frame.vm.index .empty).settings

/-- The machine of the frame has the same settings in two states. -/
def Running.SameSettings (s t : Running) : Prop := t.settings = s.settings

namespace World

/-- The machines have the same settings in two worlds. -/
def SameSettings (w w' : World) : Prop :=
  ∀ index, (w'.vms.getD index .empty).settings = (w.vms.getD index .empty).settings

theorem sameSettings_modifyVm (w : World) (id : VmId) {f : Vm → Vm}
    (hf : ∀ vm, (f vm).settings = vm.settings) : w.SameSettings (w.modifyVm id f) := by
  intro index
  show ((w.vms.modify id.index f).getD index .empty).settings = _
  rw [Array.getD_eq_getD_getElem?, Array.getD_eq_getD_getElem?, Array.getElem?_modify]
  split
  · cases w.vms[index]? with
    | none => rfl
    | some vm => exact hf vm
  · rfl

/-- Programs of the host change no settings. -/
theorem hosted_sameSettings : Hosted SameSettings where
  refl _ _ := rfl
  trans h h' index := (h' index).trans (h index)
  heap _ _ _ := rfl
  write _ _ _ := rfl
  close w id := w.sameSettings_modifyVm id fun _ => rfl
  release w id := w.sameSettings_modifyVm id fun _ => rfl
  setBreakpoint {w w' id _ _ _} h := by
    rcases setBreakpoint_cases h with rfl | ⟨m, rfl⟩
    · exact fun _ => rfl
    · exact w.sameSettings_modifyVm id fun _ => rfl
  record _ _ _ := rfl
  countUp _ _ _ _ := rfl

end World

namespace Effect

/-! ## Keeping a relation -/

variable {α β : Type}

/-- The state of a result, good or bad. -/
def stateOf : EStateM.Result Failure Running α → Running
  | .ok _ s => s
  | .error _ s => s

/-- The failure of a result, if it is bad. -/
def failureOf : EStateM.Result Failure Running α → Option Failure
  | .ok _ _ => none
  | .error failure _ => some failure

/-- The state in which an effect ends, well or not. -/
def after (x : Effect α) (s : Running) : Running := stateOf (x s)

/-- The failure with which an effect ends, if any. -/
def failure? (x : Effect α) (s : Running) : Option Failure := failureOf (x s)

/-- What can be said of an effect by the state from which it leads, the failure with which it ends,
if any, and the state in which it ends. -/
abbrev Verdict := Running → Option Failure → Running → Prop

/-- A verdict that does not ask for failures. -/
abbrev Verdict.of (R : Running → Running → Prop) : Verdict := fun s _ t => R s t

/-- A verdict holds of an effect, wherever it begins. -/
def Upholds (V : Verdict) (x : Effect α) : Prop := ∀ s, V s (x.failure? s) (x.after s)

/-- An effect leads from each state to a related one. -/
abbrev Keeps (R : Running → Running → Prop) (x : Effect α) : Prop := Upholds (.of R) x

/-- The failure with which a program of the host ends, if any. -/
def failed : Except Failure α → Option Failure
  | .ok _ => none
  | .error failure => some failure

/-- A verdict holds of all basic effects that leave the position of the frame alone. -/
structure Verdict.Calm (V : Verdict) : Prop where
  /-- What does not move is kept. -/
  refl : ∀ s, V s none s
  /-- What holds of two effects holds of one after the other. -/
  trans : ∀ {s t u failure}, V s none t → V t failure u → V s failure u
  /-- A fault is raised. -/
  fault : ∀ (s : Running) (f : Fault), V s (some (.fault f)) s
  /-- The call goes on in its registers. -/
  frame : ∀ (s : Running) (f : Frame), s.frame.SameCall f → f.pc = s.frame.pc →
    V s none { s with frame := f }
  /-- Tables change. -/
  heap : ∀ (s : Running) (heap : Heap), V s none { s with world := { s.world with heap } }
  /-- A program of the host runs. -/
  perform : ∀ {α : Type} (s : Running) (p : HookProgram α), s.settings.Offers p →
    V s (failed (p.perform s.world).2) { s with world := (p.perform s.world).1 }
  /-- An instruction is traced. -/
  trace : ∀ (s : Running) (line : Bytes), V s none { s with world :=
    { s.world.modifyVm s.frame.vm fun vm => { vm with traced := vm.traced + 1 } with
      traceLines := s.world.traceLines.push line } }
  /-- A captured variable is written. -/
  writeCell : ∀ id value (s : Running), V s none ((writeCell id value).after s)
  /-- A captured variable of its own is made. -/
  closedCell : ∀ value (s : Running), V s none ((closedCell value).after s)
  /-- A register is captured. -/
  captureRegister : ∀ slot (s : Running), V s none ((captureRegister slot).after s)
  /-- Captured variables are closed. -/
  closeFrom : ∀ slot (s : Running), V s none ((closeFrom slot).after s)

/-- A verdict holds of all basic effects that give no loop a traversal, make no closure, count no
hit and confuse no kinds of values. -/
structure Verdict.Moving (V : Verdict) : Prop extends Verdict.Calm V where
  /-- The call goes on elsewhere in its code. -/
  moved : ∀ (s : Running) (pc : Nat), V s none { s with frame := { s.frame with pc } }

/-- A verdict holds of the basic effects on traversals. -/
structure Verdict.Looping (V : Verdict) : Prop where
  /-- A loop gets a traversal. -/
  setIterator : ∀ (s : Running) slot bridge,
    V s none { s with frame := s.frame.setIterator slot bridge }
  /-- A loop loses its traversal. -/
  dropIterator : ∀ (s : Running) slot, V s none { s with frame := s.frame.dropIterator slot }

/-- A verdict holds of the basic effect that makes a closure. -/
structure Verdict.Making (V : Verdict) : Prop where
  /-- A closure is made. -/
  createClosure : ∀ index upvalues (s : Running), V s none ((createClosure index upvalues).after s)

/-- A verdict holds of all basic effects. -/
structure Verdict.Steady (V : Verdict) : Prop
    extends Verdict.Moving V, Verdict.Looping V, Verdict.Making V where
  /-- The sum of hits goes up. -/
  countHit : ∀ s : Running, V s none (countHit.after s)
  /-- A value is not of the kind that is wanted. -/
  confusion : ∀ s : Running, V s (some .confusion) s

/-- A relation is kept by all basic effects that leave the position of the frame alone. -/
abbrev Calm (R : Running → Running → Prop) : Prop := Verdict.Calm (.of R)

/-- A relation is kept by all basic effects that give no loop a traversal, make no closure, count no
hit and confuse no kinds of values. -/
abbrev Moving (R : Running → Running → Prop) : Prop := Verdict.Moving (.of R)

/-- A relation is kept by the basic effects on traversals. -/
abbrev Looping (R : Running → Running → Prop) : Prop := Verdict.Looping (.of R)

/-- A relation is kept by the basic effect that makes a closure. -/
abbrev Making (R : Running → Running → Prop) : Prop := Verdict.Making (.of R)

/-- A relation is kept by all basic effects. -/
abbrev Steady (R : Running → Running → Prop) : Prop := Verdict.Steady (.of R)

variable {V : Verdict}

theorem result_bind (x : Effect α) (f : α → Effect β) (s : Running) :
    (x >>= f) s = match x s with
      | .ok a s' => f a s'
      | .error failure s' => .error failure s' := by
  show EStateM.bind x f s = _
  unfold EStateM.bind
  cases x s <;> rfl

theorem after_bind (x : Effect α) (f : α → Effect β) (s : Running) :
    (x >>= f).after s = match x s with
      | .ok a s' => (f a).after s'
      | .error _ s' => s' := by
  unfold after
  rw [result_bind]
  cases x s <;> rfl

theorem after_perform (p : HookProgram α) (s : Running) :
    (perform p).after s = { s with world := (p.perform s.world).1 } := by
  unfold after perform
  rcases p.perform s.world with ⟨w, _ | _⟩ <;> rfl

theorem failure?_perform (p : HookProgram α) (s : Running) :
    (perform p).failure? s = failed (p.perform s.world).2 := by
  unfold failure? perform
  rcases p.perform s.world with ⟨w, _ | _⟩ <;> rfl

/-- A verdict holds of an effect where it begins in some state. -/
abbrev UpholdsAt (V : Verdict) (s : Running) (x : Effect α) : Prop :=
  V s (x.failure? s) (x.after s)

theorem upholdsAt_settings_bind {f : Settings → Effect β} {s : Running}
    (h : UpholdsAt V s (f s.settings)) : UpholdsAt V s (settings >>= f) := h

/-- What holds of an effect and of all that can follow it, where that begins. -/
theorem upholds_bind_at (hV : Verdict.Calm V) {x : Effect α} {f : α → Effect β} {s : Running}
    (hx : UpholdsAt V s x) (hf : ∀ a t, x s = .ok a t → UpholdsAt V t (f a)) :
    UpholdsAt V s (x >>= f) := by
  unfold UpholdsAt failure? after at hx ⊢
  rw [result_bind]
  cases hxs : x s with
  | ok a s' =>
    rw [hxs] at hx
    exact hV.trans hx (hf a s' hxs)
  | error failure s' =>
    rw [hxs] at hx
    exact hx

theorem Upholds.bind (hV : Verdict.Calm V) {x : Effect α} {f : α → Effect β} (hx : Upholds V x)
    (hf : ∀ a, Upholds V (f a)) : Upholds V (x >>= f) :=
  fun s => upholds_bind_at hV (hx s) fun a t _ => hf a t

theorem Upholds.ite {c : Prop} [Decidable c] {x y : Effect α} (hx : Upholds V x)
    (hy : Upholds V y) : Upholds V (if c then x else y) := by
  split
  · exact hx
  · exact hy

/-- What the operations do that pass over an auxiliary word, before they do so. -/
def passing (op : Opcode) (i : Instruction) : Effect Unit := do
  match op with
  | .loadConstantExtended => put i.operands.a i.constant.value
  | .getGlobal => put i.operands.a (← getGlobal i.constant.value)
  | .setGlobal => setGlobal i.constant.value (← register i.operands.a)
  | .getImport => put i.operands.a (← getImport i.path)
  | .getField => put i.operands.a (← getField (← register i.operands.b) i.constant.value)
  | .setField => setField (← register i.operands.b) i.constant.value (← register i.operands.a)
  | .newTable => put i.operands.a (.table (← createTable))
  | .setList =>
    match ← register i.operands.a with
    | .table t =>
      let count ← countFrom i.operands.b i.operands.c
      let items ← if count = 0 then pure [] else values i.operands.b count
      setItems t i.aux.toNat items
    | other => fault (.listTarget other.kind)
  | _ => return

theorem executePlain_of_passes {op : Opcode} (h : op.motion = .passes) (i : Instruction) :
    executePlain op i = passing op i >>= fun _ => jump 1 := by
  cases op with
  | fastCall2 | fastCall2Constant | fastCall3 | loadConstantExtended => rfl
  | getGlobal | setGlobal | getImport | getField | setField | newTable =>
    simp only [executePlain, passing, bind_assoc]
  | setList =>
    show setList i = _
    unfold setList passing
    simp only [bind_assoc]
    refine bind_congr fun target => ?_
    cases target with
    | table t =>
      simp only [bind_assoc]
      refine bind_congr fun count => ?_
      by_cases hcount : count = 0
      · simp only [if_pos hcount, bind_assoc]
      · simp only [if_neg hcount, bind_assoc]
    | _ => rfl
  | _ => cases h

section Calm

variable (hV : Verdict.Calm V)

include hV

/-! ## Basic effects -/

/-- An effect that only looks keeps everything. -/
theorem Verdict.Calm.looking {x : Effect α} (h : ∀ s, ∃ a, x s = .ok a s) : Upholds V x := by
  intro s
  obtain ⟨a, hs⟩ := h s
  unfold failure? after
  rw [hs]
  exact hV.refl s

theorem keeps_pure (a : α) : Upholds V (pure a : Effect α) := hV.looking fun _ => ⟨_, rfl⟩

theorem keeps_fault (f : Fault) : Upholds V (fault f : Effect α) := fun s => hV.fault s f

theorem keeps_ofExcept (e : Except Fault α) : Upholds V (ofExcept e) := by
  cases e with
  | ok a => exact keeps_pure hV a
  | error f => exact keeps_fault hV f

theorem keeps_modifyFrame {g : Frame → Frame} (hg : ∀ f : Frame, f.SameCall (g f))
    (hpc : ∀ f : Frame, (g f).pc = f.pc) : Upholds V (modifyFrame g) :=
  fun s => hV.frame s _ (hg s.frame) (hpc s.frame)

theorem keeps_put (slot : Nat) (value : Value) : Upholds V (put slot value) :=
  keeps_modifyFrame hV (fun f => f.sameCall_put slot value) fun _ => rfl

theorem keeps_get : Upholds V (get : Effect Running) := hV.looking fun _ => ⟨_, rfl⟩

theorem keeps_vm : Upholds V vm := hV.looking fun _ => ⟨_, rfl⟩

theorem keeps_settings : Upholds V settings := hV.looking fun _ => ⟨_, rfl⟩

theorem keeps_prototype : Upholds V prototype := hV.looking fun _ => ⟨_, rfl⟩

theorem keeps_register (slot : Nat) : Upholds V (register slot) := hV.looking fun _ => ⟨_, rfl⟩

theorem keeps_countFrom (first field : Nat) : Upholds V (countFrom first field) :=
  hV.looking fun _ => ⟨_, rfl⟩

theorem keeps_readCell (id : CellId) : Upholds V (readCell id) := by
  refine hV.looking fun s => ?_
  unfold readCell
  split
  · exact ⟨_, rfl⟩
  · split
    · exact ⟨_, rfl⟩
    · split <;> exact ⟨_, rfl⟩

theorem keeps_upvalue (index : Nat) : Upholds V (upvalue index) := by
  intro s
  unfold failure? after upvalue
  cases s.frame.upvalues[index]? with
  | none => exact hV.fault s _
  | some id => exact hV.refl s

theorem keeps_ensure (size : Nat) : Upholds V (ensure size) := by
  refine (keeps_settings hV).bind hV fun settings s => ?_
  unfold failure? after
  dsimp only
  cases h : s.frame.ensure? size settings.maxRegisters with
  | none => exact hV.fault s _
  | some f => exact hV.frame s f (s.frame.sameCall_ensure? h) (s.frame.pc_ensure? h)

theorem keeps_perform {s : Running} {p : HookProgram α} (h : s.settings.Offers p) :
    UpholdsAt V s (perform p) := by
  unfold UpholdsAt
  rw [after_perform, failure?_perform]
  exact hV.perform s p h

theorem keeps_stepHook (opcode : Opcode) : Upholds V (stepHook opcode) := by
  intro s
  unfold stepHook
  refine upholdsAt_settings_bind ?_
  cases hhook : s.settings.hooks.step with
  | none => exact hV.refl s
  | some hook => exact keeps_perform hV (.step hhook _)

theorem keeps_interrupt (opcode : Opcode) : Upholds V (interrupt opcode) := by
  intro s
  unfold interrupt
  refine upholdsAt_settings_bind ?_
  cases hhook : s.settings.hooks.interrupt with
  | none => exact hV.refl s
  | some hook => exact keeps_perform hV (.interrupt hhook _)

theorem keeps_trace (i : Instruction) : Upholds V (trace i) := by
  intro s
  show UpholdsAt V s (ite _ _ _)
  split
  · exact hV.trace s _
  · exact hV.refl s

theorem keeps_passBreakpoint : Upholds V passBreakpoint := by
  intro s
  unfold passBreakpoint
  refine upholdsAt_settings_bind ?_
  cases hhook : s.settings.hooks.breakpoint with
  | none => exact hV.refl s
  | some hook => exact keeps_perform hV (.breakpoint hhook _)

theorem keeps_getKey (t : TableId) (key : Value) : Upholds V (getKey t key) :=
  hV.looking fun _ => ⟨_, rfl⟩

theorem keeps_setKey (t : TableId) (key value : Value) : Upholds V (setKey t key value) := by
  intro s
  unfold failure? after setKey
  cases s.world.heap.set t key value with
  | ok heap => exact hV.heap s heap
  | error f => exact hV.fault s f

theorem keeps_createTable : Upholds V createTable := fun s => hV.heap s _

theorem keeps_writeCell (id : CellId) (value : Value) : Upholds V (writeCell id value) := by
  intro s
  have hnone : (writeCell id value).failure? s = none := by
    unfold failure? writeCell
    split
    · rfl
    · split <;> rfl
  rw [hnone]
  exact hV.writeCell id value s

/-! ## Globals and fields -/

theorem keeps_getGlobal (key : Value) : Upholds V (getGlobal key) := by
  refine (keeps_vm hV).bind hV fun vm => ?_
  have hrest : ∀ {last : Effect Value} (extension : Value), Upholds V last →
      Upholds V (if !extension.isNil then pure extension else last) :=
    fun extension hlast => .ite (keeps_pure hV _) hlast
  cases vm.environment with
  | some globals =>
    have hlast := keeps_getKey hV globals key
    cases vm.settings.extensions with
    | some t => exact (keeps_getKey hV t key).bind hV fun _ => hrest _ hlast
    | none => exact (keeps_pure hV _).bind hV fun _ => hrest _ hlast
  | none =>
    have hlast : Upholds V (pure Value.nil) := keeps_pure hV _
    cases vm.settings.extensions with
    | some t => exact (keeps_getKey hV t key).bind hV fun _ => hrest _ hlast
    | none => exact (keeps_pure hV _).bind hV fun _ => hrest _ hlast

theorem keeps_setGlobal (key value : Value) : Upholds V (setGlobal key value) := by
  refine (keeps_vm hV).bind hV fun vm => ?_
  split
  · exact keeps_setKey hV _ _ _
  · exact keeps_fault hV _

theorem keeps_getField (object key : Value) : Upholds V (getField object key) := by
  refine (keeps_settings hV).bind hV fun settings => ?_
  split
  · exact keeps_getKey hV _ _
  · exact keeps_getKey hV _ _
  · split
    · exact keeps_pure hV _
    · exact keeps_fault hV _
  · exact keeps_fault hV _

theorem keeps_setField (object key value : Value) : Upholds V (setField object key value) := by
  unfold setField
  split
  · exact keeps_setKey hV _ _ _
  · exact keeps_fault hV _

theorem keeps_getImport (path : ImportPath) : Upholds V (getImport path) := by
  refine (keeps_settings hV).bind hV fun settings => ?_
  split
  · exact keeps_pure hV _
  · refine (keeps_getGlobal hV _).bind hV fun first => ?_
    have hrest : ∀ value : Value, Upholds V
        (if 3 ≤ path.count then getField value path.third else pure value : Effect Value) :=
      fun value => .ite (keeps_getField hV _ _) (keeps_pure hV _)
    exact .ite ((keeps_getField hV _ _).bind hV hrest) ((keeps_pure hV _).bind hV hrest)

/-! ## Calls and results -/

theorem keeps_values (first count : Nat) : Upholds V (values first count) :=
  (keeps_ensure hV _).bind hV fun _ => hV.looking fun _ => ⟨_, rfl⟩

theorem keeps_storeResults (base wanted : Nat) (results : List Value) :
    Upholds V (storeResults base wanted results) := by
  refine .ite ((keeps_ensure hV _).bind hV fun _ => keeps_modifyFrame hV (fun f => ?_) fun f => ?_)
    ((keeps_ensure hV _).bind hV fun _ => keeps_modifyFrame hV (fun f => ?_) fun f => f.pc_putAll)
  · exact (f.sameCall_putAll base results).trans (Frame.sameCall_moved _ _ _ _)
  · exact f.pc_putAll
  · exact f.sameCall_putAll base _

theorem keeps_call (i : Instruction) : Upholds V (call i) := by
  refine (keeps_interrupt hV _).bind hV fun _ => ?_
  refine (keeps_countFrom hV _ _).bind hV fun count => ?_
  refine (keeps_values hV _ _).bind hV fun args => ?_
  exact (keeps_register hV _).bind hV fun function => keeps_pure hV _

theorem keeps_ret (i : Instruction) : Upholds V (ret i) := by
  refine (keeps_interrupt hV _).bind hV fun _ => ?_
  refine (keeps_countFrom hV _ _).bind hV fun count => ?_
  exact .ite (keeps_pure hV _) ((keeps_values hV _ _).bind hV fun values => keeps_pure hV _)

theorem keeps_getVarargs (i : Instruction) : Upholds V (getVarargs i) :=
  (keeps_get hV).bind hV fun _ => keeps_storeResults hV _ _ _

theorem keeps_setItems (t : TableId) (first : Nat) (items : List Value) :
    Upholds V (setItems t first items) := by
  induction items generalizing first with
  | nil => exact keeps_pure hV ()
  | cons value others ih => exact (keeps_setKey hV _ _ _).bind hV fun _ => ih (first + 1)

theorem keeps_callHooks : Upholds V callHooks := by
  have hcurrent : ∀ g : Frame → Nat,
      Upholds V (modifyFrame fun f => { f with current := g f }) := fun g =>
    keeps_modifyFrame hV (fun f => f.sameCall_moved _ _ _) fun _ => rfl
  refine (keeps_get hV).bind hV fun _ => ?_
  refine (hcurrent _).bind hV fun _ => ?_
  refine (keeps_stepHook hV _).bind hV fun _ => ?_
  exact (keeps_interrupt hV _).bind hV fun _ => hcurrent _

theorem keeps_offeredCall? : Upholds V offeredCall? := by
  refine (keeps_settings hV).bind hV fun settings => ?_
  refine .ite (keeps_pure hV _) ?_
  refine (keeps_prototype hV).bind hV fun p => ?_
  refine (keeps_get hV).bind hV fun s => ?_
  dsimp only
  cases p.code[s.frame.pc]?.map Slot.asInstruction with
  | some i => exact keeps_pure hV _
  | none => exact keeps_pure hV _

/-! ## Closures -/

theorem keeps_captureOf (i : Instruction) (shares : Bool) : Upholds V (captureOf i shares) := by
  unfold captureOf
  split
  · exact (keeps_register hV _).bind hV fun value => hV.closedCell value
  · exact .ite (hV.captureRegister _) (hV.closedCell _)
  · exact keeps_upvalue hV _
  · exact keeps_fault hV _

/-! ## Loops -/

theorem keeps_loopNumber (slot : Nat) (which : LoopNumber) : Upholds V (loopNumber slot which) := by
  refine (keeps_register hV _).bind hV fun value => ?_
  cases value.toNumber? with
  | some n => exact keeps_pure hV n
  | none => exact keeps_fault hV _

theorem keeps_numberIn (hconfusion : ∀ s, V s (some .confusion) s) (slot : Nat) :
    Upholds V (numberIn slot) := by
  refine (keeps_register hV _).bind hV fun value => ?_
  split
  · exact keeps_pure hV _
  · exact hconfusion

theorem keeps_loopArity (hconfusion : ∀ s, V s (some .confusion) s) (i : Instruction) :
    Upholds V (loopArity i) := by
  unfold loopArity
  split
  · exact keeps_pure hV _
  · exact hconfusion

theorem keeps_stepIterator (hloops : Verdict.Looping V) (iterated : Value) :
    Upholds V (stepIterator iterated) := by
  intro s
  unfold failure? after stepIterator
  cases s.frame.iterator? s.frame.current with
  | none => exact hV.fault s _
  | some bridge =>
    dsimp only
    cases (bridge.step s.world.heap).2 with
    | ok round => exact hloops.setIterator s _ _
    | error f => exact hV.trans (hloops.setIterator s _ _) (hV.fault _ f)

/-! ## Operators and tests -/

theorem keeps_arithmetic (op : ArithmeticOp) (i : Instruction) {left right : Effect Value}
    (hleft : Upholds V left) (hright : Upholds V right) : Upholds V (arithmetic op i left right) := by
  refine hleft.bind hV fun x => ?_
  refine hright.bind hV fun y => ?_
  exact (keeps_ofExcept hV _).bind hV fun value => keeps_put hV _ _

theorem keeps_onRegisters (op : ArithmeticOp) (i : Instruction) : Upholds V (onRegisters op i) :=
  keeps_arithmetic hV op i (keeps_register hV _) (keeps_register hV _)

theorem keeps_withConstant (op : ArithmeticOp) (i : Instruction) : Upholds V (withConstant op i) :=
  keeps_arithmetic hV op i (keeps_register hV _) (keeps_pure hV _)

theorem keeps_fromConstant (op : ArithmeticOp) (i : Instruction) : Upholds V (fromConstant op i) :=
  keeps_arithmetic hV op i (keeps_pure hV _) (keeps_register hV _)

theorem keeps_select (truth : Bool) (i : Instruction) {second : Effect Value}
    (hsecond : Upholds V second) : Upholds V (select truth i second) := by
  refine (keeps_register hV _).bind hV fun first => ?_
  exact .ite (keeps_put hV _ _) (hsecond.bind hV fun value => keeps_put hV _ _)

/-! ## Operations that do not lead elsewhere -/

theorem keeps_executePlain_of_stays {op : Opcode} (h : op.motion = .stays)
    (hcount : op = .coverage → Upholds V countHit) (i : Instruction) :
    Upholds V (executePlain op i) := by
  cases op with
  | fastCall2 | fastCall2Constant | fastCall3 | loadConstantExtended | getGlobal | setGlobal
  | getImport | getField | setField | newTable | setList => cases h
  | loadBoolean | newClosure | dupClosure | namecall | jump | jumpBack | jumpExtended | jumpIf
  | jumpIfNot | jumpIfEqual | jumpIfLessEqual | jumpIfLess | jumpIfNotEqual | jumpIfNotLessEqual
  | jumpIfNotLess | jumpIfNil | jumpIfBoolean | jumpIfNumber | jumpIfString | numericPrep
  | numericLoop | genericPrep | genericPrepIndexed | genericPrepNext | genericLoop => cases h
  | nop | «breakpoint» | prepVarargs | fastCall | fastCall1 | call | ret => exact keeps_pure hV _
  | nativeCall | capture => exact keeps_fault hV _
  | coverage => exact hcount rfl
  | loadNil | loadInteger | loadConstant => exact keeps_put hV _ _
  | move | not => exact (keeps_register hV _).bind hV fun value => keeps_put hV _ _
  | getUpvalue =>
    refine (keeps_upvalue hV _).bind hV fun cell => ?_
    exact (keeps_readCell hV _).bind hV fun value => keeps_put hV _ _
  | setUpvalue =>
    refine (keeps_upvalue hV _).bind hV fun cell => ?_
    exact (keeps_register hV _).bind hV fun value => keeps_writeCell hV _ _
  | closeUpvalues => exact hV.closeFrom _
  | getTable =>
    refine (keeps_register hV _).bind hV fun object => ?_
    refine (keeps_register hV _).bind hV fun key => ?_
    exact (keeps_getField hV _ _).bind hV fun value => keeps_put hV _ _
  | setTable =>
    refine (keeps_register hV _).bind hV fun object => ?_
    refine (keeps_register hV _).bind hV fun key => ?_
    exact (keeps_register hV _).bind hV fun value => keeps_setField hV _ _ _
  | getItem =>
    refine (keeps_register hV _).bind hV fun object => ?_
    exact (keeps_getField hV _ _).bind hV fun value => keeps_put hV _ _
  | setItem =>
    refine (keeps_register hV _).bind hV fun object => ?_
    exact (keeps_register hV _).bind hV fun value => keeps_setField hV _ _ _
  | dupTable => exact (keeps_createTable hV).bind hV fun t => keeps_put hV _ _
  | add | sub | mul | div | mod | pow | idiv => exact keeps_onRegisters hV _ _
  | addConstant | subConstant | mulConstant | divConstant | modConstant | powConstant
  | idivConstant => exact keeps_withConstant hV _ _
  | subFromConstant | divFromConstant => exact keeps_fromConstant hV _ _
  | and | or => exact keeps_select hV _ _ (keeps_register hV _)
  | andConstant | orConstant => exact keeps_select hV _ _ (keeps_pure hV _)
  | minus =>
    refine (keeps_register hV _).bind hV fun value => ?_
    exact (keeps_ofExcept hV _).bind hV fun result => keeps_put hV _ _
  | length =>
    refine (keeps_register hV _).bind hV fun value => ?_
    refine (keeps_get hV).bind hV fun s => ?_
    exact (keeps_ofExcept hV _).bind hV fun result => keeps_put hV _ _
  | concat =>
    refine (keeps_get hV).bind hV fun s => ?_
    exact (keeps_ofExcept hV _).bind hV fun result => keeps_put hV _ _
  | getVarargs => exact keeps_getVarargs hV _

theorem keeps_passing (op : Opcode) (i : Instruction) : Upholds V (passing op i) := by
  unfold passing
  split
  · exact keeps_put hV _ _
  · exact (keeps_getGlobal hV _).bind hV fun value => keeps_put hV _ _
  · exact (keeps_register hV _).bind hV fun value => keeps_setGlobal hV _ _
  · exact (keeps_getImport hV _).bind hV fun value => keeps_put hV _ _
  · refine (keeps_register hV _).bind hV fun object => ?_
    exact (keeps_getField hV _ _).bind hV fun value => keeps_put hV _ _
  · refine (keeps_register hV _).bind hV fun object => ?_
    exact (keeps_register hV _).bind hV fun value => keeps_setField hV _ _ _
  · exact (keeps_createTable hV).bind hV fun t => keeps_put hV _ _
  · refine (keeps_register hV _).bind hV fun target => ?_
    split
    · refine (keeps_countFrom hV _ _).bind hV fun count => ?_
      have hitems := fun (t : TableId) items => keeps_setItems hV t i.aux.toNat items
      exact .ite ((keeps_pure hV _).bind hV (hitems _)) ((keeps_values hV _ _).bind hV (hitems _))
    · exact keeps_fault hV _
  · exact keeps_pure hV _

end Calm

/-! ## Settings that stay -/

/-- No basic effect changes the settings of the frame's machine. -/
theorem calm_sameSettings : Calm Running.SameSettings where
  refl s := rfl
  trans h h' := h'.trans h
  fault s f := rfl
  frame s f hf _ := by
    show (s.world.vms.getD f.vm.index .empty).settings = _
    rw [hf.vm]
    rfl
  heap s heap := rfl
  perform s p _ := p.perform_keeps World.hosted_sameSettings s.world s.frame.vm.index
  trace s line := by
    have hsame := s.world.sameSettings_modifyVm s.frame.vm
      (f := fun vm => { vm with traced := vm.traced + 1 }) fun _ => rfl
    exact hsame s.frame.vm.index
  writeCell id value s := by
    unfold after writeCell
    split
    · rfl
    · split <;> rfl
  closedCell value s := rfl
  captureRegister slot s := rfl
  closeFrom slot s := rfl

/-- A verdict holds of an effect wherever it begins with some settings. -/
def UpholdsUnder (settings : Settings) (V : Verdict) (x : Effect α) : Prop :=
  ∀ s : Running, s.settings = settings → UpholdsAt V s x

/-- The settings are still the same where the second effect begins. -/
theorem UpholdsUnder.bind {settings : Settings} (hV : Verdict.Calm V) {x : Effect α}
    {f : α → Effect β} (hx : Upholds V x) (hsame : Keeps Running.SameSettings x)
    (hf : ∀ a, UpholdsUnder settings V (f a)) : UpholdsUnder settings V (x >>= f) := by
  intro s hs
  refine upholds_bind_at hV (hx s) fun a t ht => hf a t ?_
  have hsettings : (x.after s).settings = s.settings := hsame s
  unfold after at hsettings
  rw [ht] at hsettings
  exact hsettings.trans hs

/-- So they are when it begins at once. -/
theorem UpholdsUnder.after_if {settings : Settings} (hV : Verdict.Calm V) {c : Prop} [Decidable c]
    {x : Effect Unit} {f : Unit → Effect β} (hx : Upholds V x)
    (hsame : Keeps Running.SameSettings x) (hf : UpholdsUnder settings V (f ())) :
    UpholdsUnder settings V (if c then x >>= f else f ()) := by
  split
  · exact UpholdsUnder.bind hV hx hsame fun _ => hf
  · exact hf

section Moving

variable (hV : Verdict.Moving V)

include hV

/-! ## Moves -/

theorem Verdict.Moving.sameCall (s : Running) (f : Frame) (hf : s.frame.SameCall f) :
    V s none { s with frame := f } := by
  have hstays : s.frame.SameCall { f with pc := s.frame.pc } :=
    hf.trans (f.sameCall_moved s.frame.pc f.current f.top)
  exact hV.trans (hV.frame s _ hstays rfl) (hV.moved _ f.pc)

theorem keeps_moveFrame {g : Frame → Frame} (hg : ∀ f : Frame, f.SameCall (g f)) :
    Upholds V (modifyFrame g) := fun s => hV.sameCall s _ (hg s.frame)

theorem keeps_jump (distance : Int) : Upholds V (jump distance) :=
  fun s => hV.moved s _

/-! ## Method calls and closures -/

theorem keeps_offerNamecall (method : Value) : Upholds V (offerNamecall method) := by
  intro s
  unfold offerNamecall
  refine upholdsAt_settings_bind ?_
  generalize hsettings : s.settings = settings
  refine (UpholdsUnder.bind hV.toCalm (keeps_offeredCall? hV.toCalm)
    (keeps_offeredCall? calm_sameSettings) fun offered => ?_ : UpholdsUnder settings V _) s
    hsettings
  cases hhandler : settings.namecallHandler with
  | none => exact fun s _ => hV.refl s
  | some handler =>
    cases offered with
    | none => exact fun s _ => hV.refl s
    | some callInst =>
      have hstore : ∀ results : List Value, Upholds V (do
          modifyFrame fun f => { f with current := f.pc, pc := f.pc + 1 }
          storeResults callInst.operands.a callInst.operands.c results
          return true) := by
        intro results
        refine Upholds.bind hV.toCalm (keeps_moveFrame hV fun f => f.sameCall_moved _ _ _) fun _ => ?_
        exact (keeps_storeResults hV.toCalm _ _ _).bind hV.toCalm fun _ => keeps_pure hV.toCalm _
      dsimp only
      refine UpholdsUnder.after_if hV.toCalm (keeps_callHooks hV.toCalm)
        (keeps_callHooks calm_sameSettings) ?_
      refine UpholdsUnder.bind hV.toCalm (keeps_countFrom hV.toCalm _ _)
        (keeps_countFrom calm_sameSettings _ _) fun count => ?_
      refine UpholdsUnder.bind hV.toCalm (keeps_values hV.toCalm _ _)
        (keeps_values calm_sameSettings _ _) fun args t ht => ?_
      have hhost := keeps_perform hV.toCalm (s := t) (.method (ht ▸ hhandler) method.toText args)
      refine upholds_bind_at hV.toCalm hhost fun answer u _ => ?_
      cases answer with
      | none => exact keeps_pure hV.toCalm _ u
      | some results =>
        exact Upholds.ite ((keeps_callHooks hV.toCalm).bind hV.toCalm fun _ => hstore results)
          (hstore results) u

theorem keeps_namecall (i : Instruction) : Upholds V (namecall i) := by
  refine (keeps_register hV.toCalm _).bind hV.toCalm fun object => ?_
  refine (keeps_put hV.toCalm _ _).bind hV.toCalm fun _ => ?_
  refine (keeps_jump hV _).bind hV.toCalm fun _ => ?_
  refine (keeps_offerNamecall hV _).bind hV.toCalm fun taken => ?_
  exact .ite ((keeps_getField hV.toCalm _ _).bind hV.toCalm fun value =>
    keeps_put hV.toCalm _ _) (keeps_pure hV.toCalm _)

theorem keeps_nextCapture? : Upholds V nextCapture? := by
  refine (keeps_prototype hV.toCalm).bind hV.toCalm fun p => ?_
  refine (keeps_get hV.toCalm).bind hV.toCalm fun s => ?_
  dsimp only
  cases p.code[s.frame.pc]?.map Slot.asInstruction with
  | some i =>
    refine .ite ?_ (keeps_pure hV.toCalm _)
    exact Upholds.bind hV.toCalm (keeps_moveFrame hV fun f => f.sameCall_moved _ _ _)
      fun _ => keeps_pure hV.toCalm _
  | none => exact keeps_pure hV.toCalm _

theorem keeps_captures (child : Prototype) (shares : Bool) (left : Nat) :
    Upholds V (captures child shares left) := by
  induction left with
  | zero => exact keeps_pure hV.toCalm _
  | succ left ih =>
    refine (keeps_nextCapture? hV).bind hV.toCalm fun i? => ?_
    cases i? with
    | none => exact keeps_fault hV.toCalm _
    | some i =>
      refine (keeps_captureOf hV.toCalm i shares).bind hV.toCalm fun first => ?_
      exact ih.bind hV.toCalm fun others => keeps_pure hV.toCalm _

theorem keeps_makeClosure (hmakes : Verdict.Making V) (target index : Nat) (shares : Bool) :
    Upholds V (makeClosure target index shares) := by
  refine (keeps_vm hV.toCalm).bind hV.toCalm fun vm => ?_
  refine (keeps_captures hV _ _ _).bind hV.toCalm fun cells => ?_
  exact Upholds.bind hV.toCalm (hmakes.createClosure _ _) fun f => keeps_put hV.toCalm _ _

omit hV in
/-- An instruction that makes a closure of a child makes one, or raises a fault. -/
theorem upholdsAt_newClosure (hcalm : Verdict.Calm V) {i : Instruction} {s : Running}
    (h : ∀ index, UpholdsAt V s (makeClosure i.operands.a index true)) :
    UpholdsAt V s (newClosure i) := by
  refine upholds_bind_at hcalm (keeps_prototype hcalm s) fun p t ht => ?_
  cases ht
  rcases i.operands.d with n | n
  · dsimp only
    split
    · exact h _
    · exact keeps_fault hcalm _ s
  · exact keeps_fault hcalm _ s

omit hV in
/-- So does one that makes a closure of the prototype that a constant names. -/
theorem upholdsAt_dupClosure (hcalm : Verdict.Calm V) {i : Instruction} {s : Running}
    (h : ∀ index, UpholdsAt V s (makeClosure i.operands.a index false)) :
    UpholdsAt V s (dupClosure i) := by
  unfold dupClosure
  split
  · refine upholds_bind_at hcalm (keeps_vm hcalm s) fun vm t ht => ?_
    cases ht
    split
    · exact h _
    · exact keeps_fault hcalm _ s
  · exact keeps_fault hcalm _ s

theorem keeps_newClosure (hmakes : Verdict.Making V) (i : Instruction) :
    Upholds V (newClosure i) :=
  fun s => upholdsAt_newClosure hV.toCalm fun index => keeps_makeClosure hV hmakes _ index _ s

theorem keeps_dupClosure (hmakes : Verdict.Making V) (i : Instruction) :
    Upholds V (dupClosure i) :=
  fun s => upholdsAt_dupClosure hV.toCalm fun index => keeps_makeClosure hV hmakes _ index _ s

/-! ## Loops and tests -/

theorem keeps_numericPrep (i : Instruction) : Upholds V (numericPrep i) := by
  refine (keeps_loopNumber hV.toCalm _ _).bind hV.toCalm fun limit => ?_
  refine (keeps_loopNumber hV.toCalm _ _).bind hV.toCalm fun step => ?_
  refine (keeps_loopNumber hV.toCalm _ _).bind hV.toCalm fun index => ?_
  refine (keeps_put hV.toCalm _ _).bind hV.toCalm fun _ => ?_
  refine (keeps_put hV.toCalm _ _).bind hV.toCalm fun _ => ?_
  refine (keeps_put hV.toCalm _ _).bind hV.toCalm fun _ => ?_
  exact .ite (keeps_jump hV _) (keeps_pure hV.toCalm _)

theorem keeps_numericLoop (hconfusion : ∀ s, V s (some .confusion) s) (i : Instruction) :
    Upholds V (numericLoop i) := by
  refine (keeps_interrupt hV.toCalm _).bind hV.toCalm fun _ => ?_
  refine (keeps_numberIn hV.toCalm hconfusion _).bind hV.toCalm fun limit => ?_
  refine (keeps_numberIn hV.toCalm hconfusion _).bind hV.toCalm fun step => ?_
  refine (keeps_numberIn hV.toCalm hconfusion _).bind hV.toCalm fun index => ?_
  refine (keeps_put hV.toCalm _ _).bind hV.toCalm fun _ => ?_
  exact .ite (keeps_jump hV _) (keeps_pure hV.toCalm _)

theorem keeps_functionPrep (i : Instruction) : Upholds V (functionPrep i) :=
  (keeps_register hV.toCalm _).bind hV.toCalm fun _ =>
    .ite (keeps_jump hV _) (keeps_fault hV.toCalm _)

/-- The loop that follows says how many values it wants. -/
theorem upholdsAt_genericPrep (hloops : Verdict.Looping V) {i : Instruction} {s : Running}
    (harity : ∀ loop,
      ((s.world.vms.getD s.frame.vm.index .empty).prototype s.frame.prototype).code[
        Frame.displace s.frame.pc i.operands.d]?.map Slot.asInstruction = some loop →
      loop.opcode = .genericLoop → Upholds V (loopArity loop)) : UpholdsAt V s (genericPrep i) := by
  have hcalm := hV.toCalm
  refine upholds_bind_at hcalm (keeps_register hcalm _ s) fun iterated t ht => ?_
  cases ht
  refine upholds_bind_at hcalm (keeps_settings hcalm s) fun settings t ht => ?_
  cases ht
  dsimp only
  split
  · refine upholds_bind_at hcalm (keeps_prototype hcalm s) fun p t ht => ?_
    cases ht
    refine upholds_bind_at hcalm (keeps_get hcalm s) fun t t' ht => ?_
    cases ht
    have hfault := fun slot => (keeps_fault (α := PUnit) hcalm (.loopTarget slot)).bind hcalm
      fun _ => keeps_jump hV i.operands.d
    split
    · rename_i loop hloop
      split
      · refine Upholds.bind hcalm (harity loop hloop ‹_›) (fun arity => ?_) s
        refine (keeps_ofExcept hcalm _).bind hcalm fun bridge => ?_
        exact Upholds.bind hcalm (fun s => hloops.setIterator s _ _) fun _ => keeps_jump hV _
      · exact hfault _ s
    · exact hfault _ s
  · exact keeps_jump hV _ s

theorem keeps_genericPrep (hloops : Verdict.Looping V) (hconfusion : ∀ s, V s (some .confusion) s)
    (i : Instruction) : Upholds V (genericPrep i) :=
  fun _ => upholdsAt_genericPrep hV hloops fun loop _ _ =>
    keeps_loopArity hV.toCalm hconfusion loop

theorem keeps_storeRound (base arity : Nat) (distance : Int) (results : List Value) :
    Upholds V (storeRound base arity distance results) := by
  refine (keeps_moveFrame hV fun f => f.sameCall_putAll _ _).bind hV.toCalm fun _ => ?_
  refine (keeps_register hV.toCalm _).bind hV.toCalm fun control => ?_
  exact .ite (keeps_jump hV _) ((keeps_put hV.toCalm _ _).bind hV.toCalm fun _ => keeps_jump hV _)

theorem keeps_genericLoop (hloops : Verdict.Looping V) {i : Instruction}
    (harity : Upholds V (loopArity i)) : Upholds V (genericLoop i) := by
  refine (keeps_interrupt hV.toCalm _).bind hV.toCalm fun _ => ?_
  refine harity.bind hV.toCalm fun arity => ?_
  refine (keeps_ensure hV.toCalm _).bind hV.toCalm fun _ => ?_
  refine Upholds.bind hV.toCalm (keeps_moveFrame hV fun f => f.sameCall_moved _ _ _) fun _ => ?_
  refine (keeps_register hV.toCalm _).bind hV.toCalm fun iterated => ?_
  refine (keeps_settings hV.toCalm).bind hV.toCalm fun settings => ?_
  refine .ite ?call ?traversal
  case call =>
    refine (keeps_register hV.toCalm _).bind hV.toCalm fun state => ?_
    exact (keeps_register hV.toCalm _).bind hV.toCalm fun control => keeps_pure hV.toCalm _
  case traversal =>
    refine (keeps_stepIterator hV.toCalm hloops _).bind hV.toCalm fun round => ?_
    split
    · refine Upholds.bind hV.toCalm (fun s => hloops.dropIterator s _) fun _ => ?_
      exact (keeps_jump hV _).bind hV.toCalm fun _ => keeps_pure hV.toCalm _
    · refine (keeps_moveFrame hV fun f => f.sameCall_putAll _ _).bind hV.toCalm fun _ => ?_
      refine (keeps_register hV.toCalm _).bind hV.toCalm fun control => ?_
      refine (keeps_put hV.toCalm _ _).bind hV.toCalm fun _ => ?_
      exact (keeps_jump hV _).bind hV.toCalm fun _ => keeps_pure hV.toCalm _

theorem keeps_compare (i : Instruction) (expected : Bool)
    (test : Value → Value → Except Fault Bool) : Upholds V (compare i expected test) := by
  refine (keeps_get hV.toCalm).bind hV.toCalm fun s => ?_
  have htest : Upholds V (do
      let outcome ← ofExcept (test (← register i.operands.a) (← register i.aux.toNat))
      branch i (outcome == expected)) := by
    refine (keeps_register hV.toCalm _).bind hV.toCalm fun x => ?_
    refine (keeps_register hV.toCalm _).bind hV.toCalm fun y => ?_
    exact (keeps_ofExcept hV.toCalm _).bind hV.toCalm fun outcome => keeps_jump hV _
  exact .ite ((keeps_fault hV.toCalm _).bind hV.toCalm fun _ => htest) htest

theorem keeps_compareConstant (i : Instruction) (test : Value → Bool) :
    Upholds V (compareConstant i test) :=
  (keeps_register hV.toCalm _).bind hV.toCalm fun _ => keeps_jump hV _

/-! ## All operations -/

theorem keeps_executePlain (op : Opcode) {i : Instruction}
    (hcount : op = .coverage → Upholds V countHit)
    (hmakes : op = .newClosure ∨ op = .dupClosure → Verdict.Making V)
    (hconfusion : op = .numericLoop → ∀ s, V s (some .confusion) s)
    (hprep : op = .genericPrep → Upholds V (genericPrep i)) : Upholds V (executePlain op i) := by
  have hcalm := hV.toCalm
  cases hmotion : op.motion with
  | stays => exact keeps_executePlain_of_stays hcalm hmotion hcount i
  | passes =>
    rw [executePlain_of_passes hmotion]
    exact (keeps_passing hcalm op i).bind hcalm fun _ => keeps_jump hV 1
  | leads =>
    cases op with
    | jump => exact keeps_jump hV _
    | loadBoolean => exact (keeps_put hcalm _ _).bind hcalm fun _ => keeps_jump hV _
    | newClosure => exact keeps_newClosure hV (hmakes (.inl rfl)) _
    | dupClosure => exact keeps_dupClosure hV (hmakes (.inr rfl)) _
    | namecall => exact keeps_namecall hV _
    | jumpBack | jumpExtended =>
      exact (keeps_interrupt hcalm _).bind hcalm fun _ => keeps_jump hV _
    | jumpIf | jumpIfNot =>
      refine (keeps_register hcalm _).bind hcalm fun value => ?_
      exact .ite (keeps_jump hV _) (keeps_pure hcalm _)
    | jumpIfEqual | jumpIfLessEqual | jumpIfLess | jumpIfNotEqual | jumpIfNotLessEqual
    | jumpIfNotLess => exact keeps_compare hV _ _ _
    | jumpIfNil | jumpIfBoolean | jumpIfNumber | jumpIfString => exact keeps_compareConstant hV _ _
    | numericPrep => exact keeps_numericPrep hV _
    | numericLoop => exact keeps_numericLoop hV (hconfusion rfl) _
    | genericPrep => exact hprep rfl
    | genericPrepIndexed | genericPrepNext => exact keeps_functionPrep hV _
    | genericLoop => exact keeps_pure hcalm _
    | _ => cases hmotion

theorem keeps_execute (op : Opcode) {i : Instruction}
    (hcount : op = .coverage → Upholds V countHit)
    (hmakes : op = .newClosure ∨ op = .dupClosure → Verdict.Making V)
    (hconfusion : op = .numericLoop → ∀ s, V s (some .confusion) s)
    (hprep : op = .genericPrep → Upholds V (genericPrep i))
    (hloop : op = .genericLoop → Upholds V (genericLoop i)) : Upholds V (execute op i) := by
  unfold execute
  split
  · exact keeps_call hV.toCalm i
  · exact keeps_ret hV.toCalm i
  · exact hloop rfl
  · exact (keeps_executePlain hV _ hcount hmakes hconfusion hprep).bind hV.toCalm fun _ =>
      keeps_pure hV.toCalm _

/-- So it is when a frame takes the results of a call. -/
theorem keeps_accept (next : Continuation) (values : List Value) :
    Upholds V (Machine.accept next values) := by
  unfold Machine.accept
  cases next with
  | results base wanted =>
    exact (keeps_storeResults hV.toCalm _ _ _).bind hV.toCalm fun _ => keeps_pure hV.toCalm _
  | iteration base arity distance =>
    exact (keeps_storeRound hV _ _ _ _).bind hV.toCalm fun _ => keeps_pure hV.toCalm _

end Moving

/-- Whatever instruction runs, and however it ends, what basic effects keep is kept. -/
theorem keeps_dispatch (hV : Verdict.Steady V) (i : Instruction) : Upholds V (dispatch i) := by
  have harity := keeps_loopArity hV.toCalm hV.confusion
  have hexecute : ∀ op, Upholds V (execute op i) := fun op =>
    keeps_execute hV.toMoving op (fun _ => hV.countHit) (fun _ => hV.toMaking)
      (fun _ => hV.confusion)
      (fun _ => keeps_genericPrep hV.toMoving hV.toLooping hV.confusion i)
      (fun _ => keeps_genericLoop hV.toMoving hV.toLooping (harity i))
  refine Upholds.bind hV.toCalm (keeps_moveFrame hV.toMoving fun f => f.sameCall_moved _ _ _)
    fun _ => ?_
  refine (keeps_trace hV.toCalm i).bind hV.toCalm fun _ => ?_
  refine (keeps_stepHook hV.toCalm _).bind hV.toCalm fun _ => ?_
  refine .ite ?_ (hexecute _)
  refine (keeps_passBreakpoint hV.toCalm).bind hV.toCalm fun values => ?_
  cases values with
  | some values => exact keeps_pure hV.toCalm _
  | none => exact hexecute _

end Effect

end ScriptMachine
