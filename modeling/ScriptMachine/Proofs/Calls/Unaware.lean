import ScriptMachine.Proofs.Calls.Isolation
import ScriptMachine.Proofs.Machine.Closing
import ScriptMachine.Proofs.Machine.Commuting
import ScriptMachine.Proofs.Machine.Divergence

/-!
# Steps that are unaware of the offer

Only the method look-up reads whether method calls are offered to the host.  All other operations
are unaware of it: they go by registers, tables, captured variables, the code around them and the
other settings.  So a step of a run comes out the same without the offer, unless the machine itself
looks a method up in it.
-/

namespace ScriptMachine

namespace Effect

variable {id : VmId} {s : Running}

/-! ## Globals and fields -/

theorem unaware_getGlobal (key : Value) : Unaware id (getGlobal key) := by
  refine Unaware.vm_bind (fun _ => rfl) fun vm => ?_
  have hrest : ∀ (global : Effect Value), Unaware id global → ∀ extension : Value,
      Unaware id (if !extension.isNil then pure extension else global) :=
    fun _ hglobal _ => .ite (unaware_pure _) hglobal
  cases vm.environment with
  | none =>
    cases vm.settings.extensions with
    | none => exact (unaware_pure _).bind (hrest _ (unaware_pure _))
    | some t => exact (unaware_getKey t key).bind (hrest _ (unaware_pure _))
  | some globals =>
    cases vm.settings.extensions with
    | none => exact (unaware_pure _).bind (hrest _ (unaware_getKey _ _))
    | some t => exact (unaware_getKey t key).bind (hrest _ (unaware_getKey _ _))

theorem unaware_setGlobal (key value : Value) : Unaware id (setGlobal key value) := by
  refine Unaware.vm_bind (fun _ => rfl) fun vm => ?_
  split
  · exact unaware_setKey _ _ _
  · exact unaware_fault _

theorem unaware_getField (object key : Value) : Unaware id (getField object key) := by
  refine Unaware.settings_bind (fun _ => rfl) fun settings => ?_
  split
  · exact unaware_getKey _ _
  · exact unaware_getKey _ _
  · split
    · exact unaware_pure _
    · exact unaware_fault _
  · exact unaware_fault _

theorem unaware_setField (object key value : Value) : Unaware id (setField object key value) := by
  unfold setField
  split
  · exact unaware_setKey _ _ _
  · exact unaware_fault _

theorem unaware_getImport (path : ImportPath) : Unaware id (getImport path) := by
  refine Unaware.settings_bind (fun _ => rfl) fun settings => ?_
  split
  · exact unaware_pure _
  · refine (unaware_getGlobal _).bind fun first => ?_
    have hrest : ∀ value : Value, Unaware id
        (if 3 ≤ path.count then getField value path.third else pure value : Effect Value) :=
      fun _ => .ite (unaware_getField _ _) (unaware_pure _)
    exact .ite ((unaware_getField _ _).bind hrest) ((unaware_pure _).bind hrest)

/-! ## Calls and results -/

theorem unaware_values (first count : Nat) : Unaware id (values first count) :=
  (unaware_ensure _).bind fun _ => unaware_of_reads fun _ => ⟨_, rfl, rfl⟩

/-- Results with an open count end inside the register file, which has grown to hold them. -/
theorem unaware_storeResults (base wanted : Nat) (results : List Value) :
    Unaware id (storeResults base wanted results) := by
  refine .ite (fun s => (unaware_ensure _ s).bind fun _ t ht => ⟨rfl, fun hs => ?_⟩)
    ((unaware_ensure _).bind fun _ => unaware_putAll _ _)
  obtain ⟨-, hsize⟩ := ends_ensure _ _ _ ht
  refine hs.of_frame _ ((t.frame.sameCall_putAll _ _).vm) fun _ _ => ?_
  show (base + results.length - 1 : Int) < max (t.frame.putAll base results).registers.size 262
  rw [Frame.size_putAll]
  omega

theorem unaware_call (i : Instruction) : Unaware id (call i) := by
  refine (unaware_interrupt _).bind fun _ => ?_
  refine (unaware_countFrom _ _).bind fun count => ?_
  refine (unaware_values _ _).bind fun args => ?_
  exact (unaware_register _).bind fun function => unaware_pure _

theorem unaware_ret (i : Instruction) : Unaware id (ret i) := by
  refine (unaware_interrupt _).bind fun _ => ?_
  refine (unaware_countFrom _ _).bind fun count => ?_
  refine .ite (unaware_pure _) ?_
  exact (unaware_values _ _).bind fun values => unaware_pure _

theorem unaware_getVarargs (i : Instruction) : Unaware id (getVarargs i) :=
  Unaware.get_bind (fun _ => rfl) fun _ => unaware_storeResults _ _ _

theorem unaware_setItems (t : TableId) (first : Nat) (items : List Value) :
    Unaware id (setItems t first items) := by
  induction items generalizing first with
  | nil => exact unaware_pure ()
  | cons value others ih => exact (unaware_setKey _ _ _).bind fun _ => ih (first + 1)

theorem unaware_setList (i : Instruction) : Unaware id (setList i) := by
  refine (unaware_register _).bind fun target => ?_
  split
  · refine (unaware_countFrom _ _).bind fun count => ?_
    have hrest : ∀ (t : TableId) (items : List Value), Unaware id (do
        setItems t i.aux.toNat items
        jump 1) := fun t items => (unaware_setItems _ _ _).bind fun _ => unaware_jump _
    exact .ite ((unaware_pure _).bind (hrest _)) ((unaware_values _ _).bind (hrest _))
  · exact unaware_fault _

theorem unaware_callHooks : Unaware id callHooks := by
  refine Unaware.get_bind (fun _ => rfl) fun s => ?_
  have hcurrent : ∀ current : Frame → Nat,
      Unaware id (modifyFrame fun f => { f with current := current f }) := fun _ =>
    unaware_modifyFrame_of_size (fun _ => rfl) (fun _ => rfl) fun _ => rfl
  refine (hcurrent _).bind fun _ => ?_
  refine (unaware_stepHook _).bind fun _ => ?_
  exact (unaware_interrupt _).bind fun _ => hcurrent _

/-! ## Loops -/

theorem unaware_loopNumber (slot : Nat) (which : LoopNumber) :
    Unaware id (loopNumber slot which) := by
  refine (unaware_register _).bind fun value => ?_
  cases value.toNumber? with
  | some n => exact unaware_pure n
  | none => exact unaware_fault _

theorem unaware_numericPrep (i : Instruction) : Unaware id (numericPrep i) := by
  refine (unaware_loopNumber _ _).bind fun limit => ?_
  refine (unaware_loopNumber _ _).bind fun step => ?_
  refine (unaware_loopNumber _ _).bind fun index => ?_
  refine (unaware_put _ _).bind fun _ => ?_
  refine (unaware_put _ _).bind fun _ => ?_
  refine (unaware_put _ _).bind fun _ => ?_
  exact .ite (unaware_jump _) (unaware_pure _)

theorem unaware_numberIn (slot : Nat) : Unaware id (numberIn slot) := by
  refine (unaware_register _).bind fun value => ?_
  split
  · exact unaware_pure _
  · exact unaware_throw _

theorem unaware_numericLoop (i : Instruction) : Unaware id (numericLoop i) := by
  refine (unaware_interrupt _).bind fun _ => ?_
  refine (unaware_numberIn _).bind fun limit => ?_
  refine (unaware_numberIn _).bind fun step => ?_
  refine (unaware_numberIn _).bind fun index => ?_
  refine (unaware_put _ _).bind fun _ => ?_
  exact .ite (unaware_jump _) (unaware_pure _)

theorem unaware_loopArity (i : Instruction) : Unaware id (loopArity i) := by
  unfold loopArity
  split
  · exact unaware_pure _
  · exact unaware_throw _

theorem unaware_functionPrep (i : Instruction) : Unaware id (functionPrep i) :=
  (unaware_register _).bind fun _ => .ite (unaware_jump _) (unaware_fault _)

theorem unaware_setIterator (slot : Nat) (bridge : Bridge) :
    Unaware id (modifyFrame fun f => f.setIterator slot bridge) :=
  unaware_modifyFrame_of_size (fun _ => rfl) (fun _ => rfl) fun _ => rfl

theorem unaware_genericPrep (i : Instruction) : Unaware id (genericPrep i) := by
  refine (unaware_register _).bind fun iterated => ?_
  refine Unaware.settings_bind (fun _ => rfl) fun settings => ?_
  refine .ite ?_ (unaware_jump _)
  refine Unaware.prototype_bind fun p => Unaware.get_bind (fun _ => rfl) fun s => ?_
  dsimp only
  split
  · refine .ite ?_ ((unaware_fault _).bind fun _ => unaware_jump _)
    refine (unaware_loopArity _).bind fun arity => ?_
    refine (unaware_ofExcept _).bind fun bridge => ?_
    exact (unaware_setIterator _ _).bind fun _ => unaware_jump _
  · exact (unaware_fault _).bind fun _ => unaware_jump _

theorem unaware_storeRound (base arity : Nat) (distance : Int) (results : List Value) :
    Unaware id (storeRound base arity distance results) := by
  refine (unaware_putAll _ _).bind fun _ => ?_
  refine (unaware_register _).bind fun control => ?_
  exact .ite (unaware_jump _) ((unaware_put _ _).bind fun _ => unaware_jump _)

theorem unaware_stepIterator (iterated : Value) : Unaware id (stepIterator iterated) := by
  intro s
  cases hbridge : s.frame.iterator? s.frame.current with
  | none =>
    have hbridge' : (s.unoffered id).frame.iterator? (s.unoffered id).frame.current = none :=
      hbridge
    constructor
    · unfold stepIterator
      rw [hbridge, hbridge']
      rfl
    · intro hs
      unfold after stepIterator
      rw [hbridge]
      exact hs
  | some bridge =>
    have hbridge' : (s.unoffered id).frame.iterator? (s.unoffered id).frame.current =
        some bridge := hbridge
    have hround : bridge.step (s.unoffered id).world.heap = bridge.step s.world.heap := rfl
    constructor
    · unfold stepIterator
      rw [hbridge, hbridge']
      dsimp only
      rw [hround]
      cases (bridge.step s.world.heap).2 <;> rfl
    · intro hs
      unfold after stepIterator
      rw [hbridge]
      dsimp only
      have hset := hs.of_frame
        (f := s.frame.setIterator s.frame.current (bridge.step s.world.heap).1)
        s.world rfl fun _ h => h.of_size_le rfl le_rfl
      cases (bridge.step s.world.heap).2 <;> exact hset

/-- A loop sets the top of its frame six behind its operand. -/
theorem unawareAt_genericLoop {i : Instruction} (h : s.frame.vm = id → i.operands.a < 256) :
    UnawareAt id s (genericLoop i) := by
  refine (unaware_interrupt _ s).bind fun _ s₁ h₁ => ?_
  have hvm₁ := (keeps_interrupt Machine.steady_vm.toCalm _).ends _ _ _ h₁
  refine (unaware_loopArity _ s₁).bind fun arity s₂ h₂ => ?_
  have hvm₂ :=
    (keeps_loopArity Machine.steady_vm.toCalm Machine.steady_vm.confusion i).ends _ _ _ h₂
  refine (unaware_ensure _ s₂).bind fun _ s₃ h₃ => ?_
  have hvm₃ := (ends_ensure _ _ _ h₃).1.sameCall.vm
  have hvm : s₃.frame.vm = s.frame.vm := hvm₃.trans (hvm₂.trans hvm₁)
  refine UnawareAt.bind (x := modifyFrame fun f => { f with top := i.operands.a + 6 })
    ⟨rfl, fun hs => hs.of_frame _ rfl fun hid _ => ?_⟩ fun _ s₄ _ => ?_
  · have ha := h (hvm.symm.trans hid)
    show (i.operands.a + 6 : Int) < max s₃.frame.registers.size 262
    omega
  refine ((unaware_register _).bind fun iterated => ?_) s₄
  refine Unaware.settings_bind (fun _ => rfl) fun settings => ?_
  refine .ite ?call ?traversal
  case call =>
    refine (unaware_register _).bind fun state => ?_
    exact (unaware_register _).bind fun control => unaware_pure _
  case traversal =>
    refine (unaware_stepIterator _).bind fun round => ?_
    split
    · have hdrop : Unaware id (modifyFrame fun f => f.dropIterator f.current) :=
        unaware_modifyFrame_of_size (fun _ => rfl) (fun _ => rfl) fun _ => rfl
      exact hdrop.bind fun _ => (unaware_jump _).bind fun _ => unaware_pure _
    · refine (unaware_putAll _ _).bind fun _ => ?_
      refine (unaware_register _).bind fun control => ?_
      refine (unaware_put _ _).bind fun _ => ?_
      exact (unaware_jump _).bind fun _ => unaware_pure _

/-! ## New closures -/

theorem unaware_captureOf (i : Instruction) (shares : Bool) : Unaware id (captureOf i shares) := by
  unfold captureOf
  split
  · exact (unaware_register _).bind fun value => unaware_closedCell _
  · exact .ite (unaware_captureRegister _) (unaware_closedCell _)
  · exact unaware_upvalue _
  · exact unaware_fault _

theorem unaware_nextCapture? : Unaware id nextCapture? := by
  refine Unaware.prototype_bind fun p => Unaware.get_bind (fun _ => rfl) fun s => ?_
  dsimp only
  split
  · have hmove : Unaware id (modifyFrame fun f => { f with pc := f.pc + 1 }) :=
      unaware_modifyFrame_of_size (fun _ => rfl) (fun _ => rfl) fun _ => rfl
    exact .ite (hmove.bind fun _ => unaware_pure _) (unaware_pure _)
  · exact unaware_pure _

theorem unaware_captures (child : Prototype) (shares : Bool) (left : Nat) :
    Unaware id (captures child shares left) := by
  induction left with
  | zero => exact unaware_pure _
  | succ left ih =>
    refine unaware_nextCapture?.bind fun next => ?_
    cases next with
    | none => exact unaware_fault _
    | some i =>
      refine (unaware_captureOf i shares).bind fun first => ?_
      exact ih.bind fun cells => unaware_pure _

theorem unaware_makeClosure (target index : Nat) (shares : Bool) :
    Unaware id (makeClosure target index shares) := by
  refine Unaware.vm_bind (fun _ => rfl) fun vm => ?_
  refine (unaware_captures _ _ _).bind fun cells => ?_
  exact (unaware_createClosure _ _).bind fun f => unaware_put _ _

theorem unaware_newClosure (i : Instruction) : Unaware id (newClosure i) := by
  refine Unaware.prototype_bind fun p => ?_
  dsimp only
  split
  · split
    · exact unaware_makeClosure _ _ _
    · exact unaware_fault _
  · exact unaware_fault _

theorem unaware_dupClosure (i : Instruction) : Unaware id (dupClosure i) := by
  unfold dupClosure
  split
  · refine Unaware.vm_bind (fun _ => rfl) fun vm => ?_
    exact .ite (unaware_makeClosure _ _ _) (unaware_fault _)
  · exact unaware_fault _

/-! ## Operators and tests -/

theorem unaware_arithmetic (op : ArithmeticOp) (i : Instruction) {left right : Effect Value}
    (hleft : Unaware id left) (hright : Unaware id right) :
    Unaware id (arithmetic op i left right) := by
  refine hleft.bind fun x => ?_
  refine hright.bind fun y => ?_
  exact (unaware_ofExcept _).bind fun value => unaware_put _ _

theorem unaware_select (truth : Bool) (i : Instruction) {second : Effect Value}
    (hsecond : Unaware id second) : Unaware id (select truth i second) := by
  refine (unaware_register _).bind fun first => ?_
  exact .ite (unaware_put _ _) (hsecond.bind fun value => unaware_put _ _)

theorem unaware_compare (i : Instruction) (expected : Bool)
    (test : Value → Value → Except Fault Bool) : Unaware id (compare i expected test) := by
  refine Unaware.get_bind (fun _ => rfl) fun s => ?_
  have htest : Unaware id (do
      let outcome ← ofExcept (test (← register i.operands.a) (← register i.aux.toNat))
      branch i (outcome == expected)) := by
    refine (unaware_register _).bind fun x => ?_
    refine (unaware_register _).bind fun y => ?_
    exact (unaware_ofExcept _).bind fun outcome => unaware_jump _
  exact .ite ((unaware_fault _).bind fun _ => htest) htest

theorem unaware_compareConstant (i : Instruction) (test : Value → Bool) :
    Unaware id (compareConstant i test) :=
  (unaware_register _).bind fun _ => unaware_jump _

theorem unaware_countHit : Unaware id countHit := by
  refine Unaware.get_bind (fun _ => rfl) fun s t => ⟨?_, fun ht => ht.of_world _⟩
  have hworld := t.world.modifyVm_unoffered id s.frame.vm
    (f := fun vm => { vm with module := vm.module.countHit s.frame.prototype s.frame.current })
    fun _ => rfl
  exact congrArg (fun world => EStateM.Result.ok () { t with world }) hworld

/-! ## All operations -/

/-- All operations but the method look-up are unaware of the offer. -/
theorem unaware_executePlain {op : Opcode} (i : Instruction) (h : op ≠ .namecall) :
    Unaware id (executePlain op i) := by
  cases op with
  | namecall => exact absurd rfl h
  | nop | «breakpoint» | prepVarargs | fastCall | fastCall1 | call | ret | genericLoop =>
    exact unaware_pure _
  | fastCall2 | fastCall2Constant | fastCall3 | jump => exact unaware_jump _
  | nativeCall | capture => exact unaware_fault _
  | coverage => exact unaware_countHit
  | loadNil | loadInteger | loadConstant => exact unaware_put _ _
  | loadBoolean | loadConstantExtended => exact (unaware_put _ _).bind fun _ => unaware_jump _
  | move | not => exact (unaware_register _).bind fun value => unaware_put _ _
  | getGlobal =>
    exact (unaware_getGlobal _).bind fun value => (unaware_put _ _).bind fun _ => unaware_jump _
  | setGlobal =>
    exact (unaware_register _).bind fun value =>
      (unaware_setGlobal _ _).bind fun _ => unaware_jump _
  | getImport =>
    exact (unaware_getImport _).bind fun value => (unaware_put _ _).bind fun _ => unaware_jump _
  | getUpvalue =>
    refine (unaware_upvalue _).bind fun cell => ?_
    exact (unaware_readCell _).bind fun value => unaware_put _ _
  | setUpvalue =>
    refine (unaware_upvalue _).bind fun cell => ?_
    exact (unaware_register _).bind fun value => unaware_writeCell _ _
  | closeUpvalues => exact unaware_closeFrom _
  | getTable =>
    refine (unaware_register _).bind fun object => ?_
    refine (unaware_register _).bind fun key => ?_
    exact (unaware_getField _ _).bind fun value => unaware_put _ _
  | setTable =>
    refine (unaware_register _).bind fun object => ?_
    refine (unaware_register _).bind fun key => ?_
    exact (unaware_register _).bind fun value => unaware_setField _ _ _
  | getField =>
    refine (unaware_register _).bind fun object => ?_
    refine (unaware_getField _ _).bind fun value => ?_
    exact (unaware_put _ _).bind fun _ => unaware_jump _
  | setField =>
    refine (unaware_register _).bind fun object => ?_
    refine (unaware_register _).bind fun value => ?_
    exact (unaware_setField _ _ _).bind fun _ => unaware_jump _
  | getItem =>
    refine (unaware_register _).bind fun object => ?_
    exact (unaware_getField _ _).bind fun value => unaware_put _ _
  | setItem =>
    refine (unaware_register _).bind fun object => ?_
    exact (unaware_register _).bind fun value => unaware_setField _ _ _
  | newTable =>
    exact unaware_createTable.bind fun t => (unaware_put _ _).bind fun _ => unaware_jump _
  | dupTable => exact unaware_createTable.bind fun t => unaware_put _ _
  | setList => exact unaware_setList _
  | newClosure => exact unaware_newClosure _
  | dupClosure => exact unaware_dupClosure _
  | jumpBack | jumpExtended => exact (unaware_interrupt _).bind fun _ => unaware_jump _
  | jumpIf | jumpIfNot =>
    exact (unaware_register _).bind fun value => .ite (unaware_jump _) (unaware_pure _)
  | jumpIfEqual | jumpIfLessEqual | jumpIfLess | jumpIfNotEqual | jumpIfNotLessEqual
  | jumpIfNotLess => exact unaware_compare _ _ _
  | jumpIfNil | jumpIfBoolean | jumpIfNumber | jumpIfString => exact unaware_compareConstant _ _
  | add | sub | mul | div | mod | pow | idiv =>
    exact unaware_arithmetic _ _ (unaware_register _) (unaware_register _)
  | addConstant | subConstant | mulConstant | divConstant | modConstant | powConstant
  | idivConstant => exact unaware_arithmetic _ _ (unaware_register _) (unaware_pure _)
  | subFromConstant | divFromConstant =>
    exact unaware_arithmetic _ _ (unaware_pure _) (unaware_register _)
  | and | or => exact unaware_select _ _ (unaware_register _)
  | andConstant | orConstant => exact unaware_select _ _ (unaware_pure _)
  | minus =>
    refine (unaware_register _).bind fun value => ?_
    exact (unaware_ofExcept _).bind fun result => unaware_put _ _
  | length =>
    refine (unaware_register _).bind fun value => Unaware.get_bind (fun _ => rfl) fun s => ?_
    exact (unaware_ofExcept _).bind fun result => unaware_put _ _
  | concat =>
    refine Unaware.get_bind (fun _ => rfl) fun s => ?_
    exact (unaware_ofExcept _).bind fun result => unaware_put _ _
  | getVarargs => exact unaware_getVarargs _
  | numericPrep => exact unaware_numericPrep _
  | numericLoop => exact unaware_numericLoop _
  | genericPrep => exact unaware_genericPrep _
  | genericPrepIndexed | genericPrepNext => exact unaware_functionPrep _

theorem unawareAt_execute {op : Opcode} {i : Instruction} (h : op ≠ .namecall)
    (ha : s.frame.vm = id → i.operands.a < 256) : UnawareAt id s (execute op i) := by
  unfold execute
  split
  · exact unaware_call i s
  · exact unaware_ret i s
  · exact unawareAt_genericLoop ha
  · exact ((unaware_executePlain i h).bind fun _ => unaware_pure _) s

/-! ## Before the operation -/

theorem unaware_passBreakpoint : Unaware id passBreakpoint := by
  refine Unaware.settings_bind (fun _ => rfl) fun settings => ?_
  split
  · exact (unaware_context _).bind fun _ => unaware_perform _
  · exact unaware_pure _

theorem unaware_trace (i : Instruction) : Unaware id (trace i) := by
  refine Unaware.vm_bind (fun _ => rfl) fun vm => Unaware.get_bind (fun _ => rfl) fun s => ?_
  refine .ite (fun t => ⟨?_, fun ht => ht.of_world _⟩) (unaware_pure _)
  have hworld := t.world.modifyVm_unoffered id s.frame.vm
    (f := fun vm => { vm with traced := vm.traced + 1 }) fun _ => rfl
  exact congrArg (fun world => EStateM.Result.ok () { t with world := { world with
    traceLines := t.world.traceLines.push (traceLine (vm.prototype s.frame.prototype).name
      s.frame.current i) } }) hworld

theorem unaware_prelude (i : Instruction) : Unaware id (prelude i) := by
  have hadvance : Unaware id (modifyFrame fun f => { f with current := f.pc, pc := f.pc + 1 }) :=
    unaware_modifyFrame_of_size (fun _ => rfl) (fun _ => rfl) fun _ => rfl
  refine hadvance.bind fun _ => ?_
  refine (unaware_trace i).bind fun _ => ?_
  refine (unaware_stepHook _).bind fun _ => ?_
  exact .ite unaware_passBreakpoint (unaware_pure _)

/-! ## Method look-ups of other machines -/

theorem vm_unoffered_of_ne (h : s.frame.vm ≠ id) : (s.unoffered id).vm = s.vm := by
  rcases vm_unoffered id s with hsame | ⟨hid, -⟩
  · exact hsame
  · exact absurd hid h

theorem UnawareAt.settings_bind_of_ne {α : Type} {f : Settings → Effect α} (h : s.frame.vm ≠ id)
    (hf : ∀ settings, UnawareAt id s (f settings)) : UnawareAt id s (settings >>= f) := by
  refine ⟨?_, (hf s.vm.settings).topped⟩
  rw [settings_bind, settings_bind, vm_unoffered_of_ne h]
  exact (hf s.vm.settings).same

theorem unawareAt_offeredCall? (h : s.frame.vm ≠ id) : UnawareAt id s offeredCall? := by
  refine UnawareAt.settings_bind_of_ne h fun settings => ?_
  refine Unaware.ite (unaware_pure _) (Unaware.prototype_bind fun p => ?_) s
  refine Unaware.get_bind (fun _ => rfl) fun t => ?_
  dsimp only
  split
  · exact unaware_pure _
  · exact unaware_pure _

/-- What a handler does with a call does not depend on the switch. -/
theorem unaware_handled (handler : Bytes → List Value → HookProgram (Option (List Value)))
    (method : Value) (base argField resultField : Nat) (reinvokes : Bool) :
    Unaware id (do
      let args ← values (base + 1) (← countFrom (base + 1) argField)
      match ← perform (handler method.toText args) with
      | none => return false
      | some results =>
        if !reinvokes then callHooks
        modifyFrame fun f => { f with current := f.pc, pc := f.pc + 1 }
        storeResults base resultField results
        return true) := by
  refine (unaware_countFrom _ _).bind fun count => ?_
  refine (unaware_values _ _).bind fun args => ?_
  refine (unaware_perform _).bind fun answer => ?_
  cases answer with
  | none => exact unaware_pure _
  | some results =>
    have hadvance : Unaware id (modifyFrame fun f => { f with current := f.pc, pc := f.pc + 1 }) :=
      unaware_modifyFrame_of_size (fun _ => rfl) (fun _ => rfl) fun _ => rfl
    have hstore : Unaware id (do
        modifyFrame fun f => { f with current := f.pc, pc := f.pc + 1 }
        storeResults base resultField results
        return true) :=
      hadvance.bind fun _ => (unaware_storeResults _ _ _).bind fun _ => unaware_pure _
    exact .ite (unaware_callHooks.bind fun _ => hstore) hstore

theorem unawareAt_offerNamecall (h : s.frame.vm ≠ id) (method : Value) :
    UnawareAt id s (offerNamecall method) := by
  refine UnawareAt.settings_bind_of_ne h fun settings => ?_
  refine (unawareAt_offeredCall? h).bind fun offered t _ => ?_
  cases settings.namecallHandler with
  | none => exact unaware_pure _ t
  | some handler =>
    cases offered with
    | none => exact unaware_pure _ t
    | some call =>
      exact Unaware.ite (unaware_callHooks.bind fun _ => unaware_handled handler _ _ _ _ _)
        (unaware_handled handler _ _ _ _ _) t

/-- Whether another machine offers its method calls is none of the business of this one. -/
theorem unawareAt_namecall {i : Instruction} (h : s.frame.vm ≠ id) :
    UnawareAt id s (namecall i) := by
  have hlookedUp : UnawareAt id (lookedUp i s) (do
      if !(← offerNamecall i.constant.value) then
        put i.operands.a (← getField (s.frame.register i.operands.b) i.constant.value)) :=
    (unawareAt_offerNamecall (s := lookedUp i s) h _).bind fun taken t _ =>
      Unaware.ite ((unaware_getField _ _).bind fun _ => unaware_put _ _) (unaware_pure _) t
  refine ⟨hlookedUp.same, fun hs => hlookedUp.topped ?_⟩
  exact hs.of_frame _ rfl fun _ ht => ht.of_size_le rfl Frame.size_put.ge

end Effect

variable {id : VmId}

/-! ## Instructions -/

namespace Effect

variable {s : Running} {i : Instruction}

/-- All instructions are unaware of the offer but method look-ups of the machine itself. -/
theorem unawareAt_dispatch (hlooks : s.frame.vm = id → i.operation ≠ .namecall)
    (ha : s.frame.vm = id → i.operands.a < 256) : UnawareAt id s (dispatch i) := by
  rw [dispatch_eq]
  refine (unaware_prelude i s).bind fun early t ht => ?_
  have hvm := (keeps_prelude Machine.steady_vm.toMoving i).ends _ _ _ ht
  cases early with
  | some values => exact unaware_pure _ t
  | none =>
    show UnawareAt id t (execute i.operation i)
    by_cases hid : t.frame.vm = id
    · exact unawareAt_execute (hlooks (hvm.symm.trans hid)) fun _ => ha (hvm.symm.trans hid)
    · by_cases hop : i.operation = .namecall
      · rw [hop]
        exact (unawareAt_namecall hid).bind fun _ u _ => unaware_pure _ u
      · exact unawareAt_execute hop fun h => absurd h hid

theorem unaware_accept (next : Continuation) (values : List Value) :
    Unaware id (Machine.accept next values) := by
  cases next with
  | results base wanted => exact (unaware_storeResults _ _ _).bind fun _ => unaware_pure _
  | iteration base arity distance =>
    exact (unaware_storeRound _ _ _ _).bind fun _ => unaware_pure _

end Effect

/-! ## Failures that leave a frame -/

theorem raise_unoffered (w : World) (vm : Vm) (f : Frame) (payload : Value) :
    raise (w.unoffered id) vm f payload =
      ((raise w vm f payload).1.unoffered id, (raise w vm f payload).2) := by
  unfold raise
  rcases reportOf vm.settings f (vm.prototype f.prototype) payload with ⟨message, error⟩
  cases vm.settings.hooks.panic with
  | none => rfl
  | some hook =>
    dsimp only
    rw [Program.perform_unoffered]
    rcases Program.perform _ w with ⟨w', failure | ⟨⟩⟩ <;> rfl

theorem handle_unoffered (w : World) (f : Frame) (failure : Failure) :
    handle (w.unoffered id) f failure =
      ((handle w f failure).1.unoffered id, (handle w f failure).2) := by
  unfold handle
  rw [World.vm?_unoffered]
  cases w.vm? f.vm with
  | none => rfl
  | some vm =>
    -- the switch is not among the settings that say how a failure is handled
    have hraise : ∀ payload : Value,
        (if vm.settings.errorHandling then raise (w.unoffered id) vm f payload
          else (w.unoffered id, failure)) =
        ((if vm.settings.errorHandling then raise w vm f payload else (w, failure)).1.unoffered id,
          (if vm.settings.errorHandling then raise w vm f payload else (w, failure)).2) := by
      intro payload
      split
      · exact raise_unoffered w vm f payload
      · rfl
    have hvm : (if id = f.vm then vm.unoffered else vm) = vm ∨
        (if id = f.vm then vm.unoffered else vm) = vm.unoffered := by
      split
      · exact .inr rfl
      · exact .inl rfl
    rw [Option.map_some]
    generalize (if id = f.vm then vm.unoffered else vm) = vm' at hvm
    cases failure with
    | fault fault => rcases hvm with rfl | rfl <;> exact hraise (.string fault.message)
    | script payload reported =>
      cases reported with
      | false => rcases hvm with rfl | rfl <;> exact hraise payload
      | true => rfl
    | confusion | missingSlot | foreign => rfl

namespace Machine

/-! ## Steps -/

/-- The run in whose world a machine offers no method call. -/
def unoffered (id : VmId) (m : Machine) : Machine := { m with world := m.world.unoffered id }

theorem endFrame_unoffered (w : World) (f : Frame) :
    endFrame (w.unoffered id) f = (endFrame w f).unoffered id := by
  have hworld := w.modifyVm_unoffered id f.vm (f := fun vm => { vm with depth := vm.depth - 1 })
    fun _ => rfl
  exact congrArg (fun world => { world with cells := (f.toScope.closeFrom w.cells 0).2 }) hworld

theorem leave_unoffered (w : World) (f : Frame) (stack : Stack) (values : List Value) :
    leave (w.unoffered id) f stack values = (leave w f stack values).unoffered id := by
  unfold leave
  rw [endFrame_unoffered]
  rfl

theorem abort_unoffered (w : World) (f : Frame) (stack : Stack) (failure : Failure) :
    abort (w.unoffered id) f stack failure = (abort w f stack failure).unoffered id := by
  unfold abort
  rw [handle_unoffered]
  dsimp only
  rw [endFrame_unoffered]
  rfl

theorem ofSettled_unoffered (stack : Stack) (w : World) (r : Settled FunctionCall (List Value)) :
    ofSettled stack (w.unoffered id, r) = (ofSettled stack (w, r)).unoffered id := by
  cases r <;> rfl

theorem entered_unoffered (w : World) (stack : Stack) (c : Closure) (vm : Vm) (args : List Value) :
    entered (w.unoffered id) stack c vm args = (entered w stack c vm args).unoffered id := by
  have hworld := w.modifyVm_unoffered id c.vm (f := fun vm => { vm with depth := vm.depth + 1 })
    fun _ => rfl
  exact congrArg (fun world : World => Running.mk { world with nextFrame := w.nextFrame + 1 }
    (Frame.enter ⟨w.nextFrame⟩ (vm.prototype c.prototype) c args) stack) hworld

theorem enter_unoffered (w : World) (stack : Stack) (c : Closure) (vm : Vm) (args : List Value) :
    enter (w.unoffered id) stack c vm args = (enter w stack c vm args).unoffered id := by
  cases hpresent : vm.isPresent with
  | false =>
    unfold enter
    rw [hpresent]
    rfl
  | true =>
    cases halive : vm.alive with
    | false =>
      unfold enter
      rw [hpresent, halive]
      rfl
    | true =>
      rw [enter_of_alive hpresent halive, enter_of_alive hpresent halive, entered_unoffered]
      split
      · exact abort_unoffered _ _ _ _
      · rfl

theorem call_unoffered (w : World) (stack : Stack) (function : Value) (args : List Value) :
    call (w.unoffered id) stack function args = (call w stack function args).unoffered id := by
  unfold call
  split
  · rename_i f
    rw [show (w.unoffered id).function? f = w.function? f from rfl]
    split
    · rw [Program.settle_unoffered]
      exact ofSettled_unoffered _ _ _
    · rename_i c _
      rcases w.getD_unoffered id c.vm with h | ⟨-, h⟩
      · rw [h]
        exact enter_unoffered w stack c _ args
      · -- the switch is not among the settings that say whether a call begins
        rw [h]
        exact enter_unoffered w stack c (w.vms.getD c.vm.index .empty) args
    · rfl
  · rfl

theorem ofOutcome_unoffered (r : EStateM.Result Failure Running Outcome) :
    ofOutcome (Effect.mapWorld (.unoffered id) r) = (ofOutcome r).unoffered id := by
  cases r with
  | error failure s => exact abort_unoffered _ _ _ _
  | ok outcome s =>
    cases outcome with
    | next => rfl
    | leave values => exact leave_unoffered _ _ _ _
    | call function args next => rfl

theorem nextInstruction?_unoffered (w : World) (f : Frame) :
    nextInstruction? (w.unoffered id) f = nextInstruction? w f := by
  unfold nextInstruction?
  rw [World.vm?_unoffered]
  cases w.vm? f.vm with
  | none => rfl
  | some vm =>
    simp only [Option.map_some]
    split <;> rfl

theorem dispatching?_unoffered (m : Machine) :
    (m.unoffered id).dispatching? = m.dispatching? := by
  unfold dispatching? unoffered
  cases m.control with
  | run f =>
    dsimp only
    rw [nextInstruction?_unoffered]
  | _ => rfl

/-- The tops of the frames of a machine are within bounds. -/
def Topped (id : VmId) (m : Machine) : Prop := ∀ f ∈ m.frames, f.vm = id → f.Topped

theorem topped_ofOutcome {r : EStateM.Result Failure Running Outcome}
    (h : (Effect.stateOf r).Topped id) : (ofOutcome r).Topped id := by
  intro f hf
  rcases ofOutcome_cases r with ⟨-, -, hframes, -⟩ | ⟨result, -, hends⟩
  · rw [hframes] at hf
    exact h f hf
  · rw [hends] at hf
    cases result <;> exact h f (List.mem_cons_of_mem _ hf)

variable {m : Machine}

/-- A step is unaware of the offer, unless the machine itself looks a method up. -/
def StepsUnaware (id : VmId) (m : Machine) : Prop :=
  ∀ f i, m.dispatching? = some (f, i) → f.vm = id → i.operation ≠ .namecall ∧ i.operands.a < 256

/-- What a frame does in such a step is an effect that is unaware of the offer. -/
theorem StepsUnaware.acting {r : EStateM.Result Failure Running Outcome} (hm : m.StepsUnaware id)
    (h : m.acting? = some r) :
    ∃ (s : Running) (x : Effect Outcome), r = x s ∧ s.frames = m.frames ∧
      Effect.UnawareAt id s x ∧ (m.unoffered id).acting? = some (x (s.unoffered id)) := by
  obtain ⟨w, stack, control⟩ := m
  cases control with
  | run f =>
    unfold acting? unoffered at *
    dsimp only at h ⊢
    rw [nextInstruction?_unoffered]
    cases hi : nextInstruction? w f with
    | none =>
      rw [hi] at h
      cases h
      exact ⟨⟨w, f, stack⟩, pure (.leave []), rfl, rfl, Effect.unaware_pure _ _, rfl⟩
    | some i =>
      rw [hi] at h
      cases h
      have hnext := hm f i (by simp [dispatching?, hi])
      exact ⟨⟨w, f, stack⟩, Effect.dispatch i, rfl, rfl,
        Effect.unawareAt_dispatch (fun hid => (hnext hid).1) fun hid => (hnext hid).2, rfl⟩
  | call function args => cases stack <;> cases h
  | give values =>
    cases stack with
    | nil => cases h
    | cons waiting stack =>
      cases waiting with
      | native resume => cases h
      | frame f next =>
        cases h
        exact ⟨⟨w, f, stack⟩, accept next values, rfl, rfl, Effect.unaware_accept _ _ _, rfl⟩
  | fail failure =>
    cases stack with
    | nil => cases h
    | cons waiting stack =>
      cases waiting with
      | native resume => cases h
      | frame f next =>
        cases h
        exact ⟨⟨w, f, stack⟩, throw failure, rfl, rfl, Effect.unaware_throw _ _, rfl⟩

/-- So the step comes out the same, whether method calls are offered or not. -/
theorem StepsUnaware.step (hm : m.StepsUnaware id) :
    (m.unoffered id).step = m.step.unoffered id := by
  cases hacting : m.acting? with
  | some r =>
    obtain ⟨s, x, rfl, -, hx, hacting'⟩ := hm.acting hacting
    rw [step_of_acting hacting, step_of_acting hacting', hx.same, ofOutcome_unoffered]
  | none =>
    obtain ⟨w, stack, control⟩ := m
    cases control with
    | run f =>
      unfold acting? at hacting
      dsimp only at hacting
      split at hacting <;> cases hacting
    | call function args => exact call_unoffered w stack function args
    | give values =>
      cases stack with
      | nil => rfl
      | cons waiting stack =>
        cases waiting with
        | frame f next => cases hacting
        | native resume =>
          show ofSettled stack ((resume (.ok values)).settle (w.unoffered id)) = _
          rw [Program.settle_unoffered]
          exact ofSettled_unoffered _ _ _
    | fail failure =>
      cases stack with
      | nil => rfl
      | cons waiting stack =>
        cases waiting with
        | frame f next => cases hacting
        | native resume =>
          show ofSettled stack ((resume (.error failure)).settle (w.unoffered id)) = _
          rw [Program.settle_unoffered]
          exact ofSettled_unoffered _ _ _

/-- The tops of frames stay within bounds. -/
theorem StepsUnaware.topped (hm : m.StepsUnaware id) (h : m.Topped id) : m.step.Topped id := by
  cases hacting : m.acting? with
  | some r =>
    obtain ⟨s, x, rfl, hframes, hx, -⟩ := hm.acting hacting
    rw [step_of_acting hacting]
    refine topped_ofOutcome (hx.topped fun f hf => ?_)
    rw [hframes] at hf
    exact h f hf
  | none =>
    cases hentering : m.entering? with
    | none =>
      obtain ⟨-, -, hframes, -⟩ := step_of_resting hacting hentering
      unfold Topped
      rw [hframes]
      exact h
    | some entering =>
      obtain ⟨s, overflows⟩ := entering
      obtain ⟨c, vm, args, rfl, hframes, -⟩ := entering_spec hentering
      rw [step_of_entering hentering]
      intro f hf hid
      have hnew : f = (entered m.world m.stack c vm args).frame ∨ f ∈ m.stack.frames := by
        cases overflows with
        | true => exact .inr hf
        | false => exact List.mem_cons.1 hf
      rcases hnew with rfl | hold
      · -- a frame that has just begun has written nothing
        show (-1 : Int) < _
        omega
      · exact h f (hframes ▸ hold) hid

end Machine

end ScriptMachine
