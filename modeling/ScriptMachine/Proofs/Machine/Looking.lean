import ScriptMachine.Proofs.Machine.Operations

/-!
# Operations that look at the code around them

A new closure looks for the captures behind it, a loop over a table for its end, and a method call
that is offered to the host for the call behind it.  They look for the operation that *runs* there,
and a breakpoint hides the operation that it stands in for.  Where nothing is hidden from them,
these operations cannot tell a patch from what it patches either.
-/

namespace ScriptMachine

/-! ## Hidden operations -/

/-- An operation is loaded at a slot, but another one runs there. -/
def Prototype.hides (p : Prototype) (op : Opcode) (slot : Nat) : Bool :=
  p.underlyingAt? slot == some op && p.opcodeAt? slot != some op

namespace Running

/-- The machine of the frame. -/
def vm (s : Running) : Vm := s.world.vms.getD s.frame.vm.index .empty

/-- The prototype of the frame. -/
def prototype (s : Running) : Prototype := s.vm.prototype s.frame.prototype

/-- The frame is one of a machine, and an operation is hidden at a slot of its code. -/
def hides (id : VmId) (s : Running) (op : Opcode) (slot : Nat) : Bool :=
  s.frame.vm == id && s.prototype.hides op slot

namespace PatchOf

variable {id : VmId} {s t : Running}

theorem vm (h : s.PatchOf id t) : s.vm.PatchOf (s.frame.vm.index = id.index) t.vm := by
  unfold Running.vm
  rw [← h.frame]
  exact h.world.vm s.frame.vm

theorem prototype (h : s.PatchOf id t) :
    s.prototype.PatchOf (s.frame.vm.index = id.index ∧ s.vm.settings.hooks.Transparent)
      t.prototype := by
  unfold Running.prototype
  rw [← h.frame]
  exact h.vm.prototype s.frame.prototype

/-- At a slot that does not hide it, an operation runs on both sides or on none. -/
theorem opcode_iff (h : s.PatchOf id t) {op : Opcode} (hop : op ≠ .breakpoint) {slot : Nat}
    (hhides : s.hides id op slot = false) :
    Option.Rel (fun i j => i.operands = j.operands ∧ i.constant = j.constant ∧
        (i.opcode = op ↔ j.opcode = op))
      (s.prototype.code[slot]?.map Slot.asInstruction)
      (t.prototype.code[slot]?.map Slot.asInstruction) := by
  rcases rel_cases (h.prototype.slot slot) with ⟨hs, ht⟩ | ⟨i, j, hs, ht, hij⟩ <;> rw [hs, ht]
  · exact .none
  · refine .some ⟨hij.operands, hij.constant, ?_⟩
    rcases hij.opcode with heq | ⟨⟨hid, -⟩, hbreakpoint, hown⟩
    · rw [heq]
    · have hne : i.opcode ≠ op := hbreakpoint ▸ hop.symm
      refine ⟨fun hi => absurd hi hne, fun hj => ?_⟩
      -- what runs on the other side is then hidden on this one
      have hunderlying : s.prototype.underlyingAt? slot = some op := by
        have hi : i.underlying = op := by rw [hij.underlying, ← hown, hj]
        simpa [Prototype.underlyingAt?, hi] using congrArg (Option.map Instruction.underlying) hs
      have hopcode : s.prototype.opcodeAt? slot = some i.opcode := by
        simpa [Prototype.opcodeAt?] using congrArg (Option.map Instruction.opcode) hs
      have hvm : s.frame.vm = id := by
        cases hf : s.frame.vm
        cases id
        simp_all
      simp [hides, Prototype.hides, hvm, hunderlying, hopcode, hne] at hhides

end PatchOf

end Running

namespace Effect

variable {id : VmId}

/-! ## Running on a state -/

section Running

variable {α : Type} (s : Running)

@[simp] theorem vm_bind (f : Vm → Effect α) : (vm >>= f) s = f s.vm s := rfl

@[simp] theorem settings_bind (f : Settings → Effect α) :
    (settings >>= f) s = f s.vm.settings s := rfl

@[simp] theorem prototype_bind (f : Prototype → Effect α) :
    (prototype >>= f) s = f s.prototype s := rfl

@[simp] theorem get_bind (f : Running → Effect α) : ((get : Effect Running) >>= f) s = f s s := rfl

@[simp] theorem register_bind (slot : Nat) (f : Value → Effect α) :
    (register slot >>= f) s = f (s.frame.register slot) s := rfl

@[simp] theorem modifyFrame_bind (g : Frame → Frame) (f : Unit → Effect α) :
    (modifyFrame g >>= f) s = f () { s with frame := g s.frame } := rfl

@[simp] theorem put_bind (slot : Nat) (value : Value) (f : Unit → Effect α) :
    (put slot value >>= f) s = f () { s with frame := s.frame.put slot value } := rfl

@[simp] theorem jump_bind (distance : Int) (f : Unit → Effect α) :
    (jump distance >>= f) s = f () { s with frame := s.frame.jump distance } := rfl

end Running

/-! ## Sequences -/

section Sequences

variable {α β : Type} {s t : Running}

theorem bind_of_ok {x : Effect α} {f : α → Effect β} {a : α} (h : x s = .ok a t) :
    (x >>= f) s = f a t := by
  show EStateM.bind x f s = _
  unfold EStateM.bind
  rw [h]

theorem bind_of_error {x : Effect α} {f : α → Effect β} {failure : Failure}
    (h : x s = .error failure t) : (x >>= f) s = .error failure t := by
  show EStateM.bind x f s = _
  unfold EStateM.bind
  rw [h]

/-- Both halves of an effect that ends well end well. -/
theorem ok_of_bind {x : Effect α} {f : α → Effect β} {b : β} {u : Running}
    (h : (x >>= f) s = .ok b u) : ∃ a t, x s = .ok a t ∧ f a t = .ok b u := by
  replace h : EStateM.bind x f s = .ok b u := h
  unfold EStateM.bind at h
  split at h
  · rename_i a t hx
    exact ⟨a, t, hx, h⟩
  · cases h

end Sequences

/-! ## Captures -/

/-- One of the next captures of a closure is hidden, and those before it go well. -/
def looksInCaptures (id : VmId) (shares : Bool) : Nat → Running → Bool
  | 0, _ => false
  | left + 1, s =>
    s.hides id .capture s.frame.pc ||
      match nextCapture? s with
      | .ok (some i) s =>
        match captureOf i shares s with
        | .ok _ s => looksInCaptures id shares left s
        | .error _ _ => false
      | _ => false

section Captures

variable {s t : Running}

theorem same_nextCapture? (h : s.PatchOf id t)
    (hhides : s.hides id .capture s.frame.pc = false) :
    Same id (Option.Rel fun i j => i.operands = j.operands) (nextCapture? s) (nextCapture? t) := by
  have hslot := h.opcode_iff (by decide) hhides
  unfold nextCapture?
  simp only [prototype_bind, get_bind, ← h.frame]
  rcases rel_cases hslot with ⟨hs, ht⟩ | ⟨i, j, hs, ht, hoperands, -, hopcode⟩ <;> rw [hs, ht]
  · exact .ok .none h
  · dsimp only
    by_cases hi : i.opcode = .capture
    · have hj : j.opcode = .capture := hopcode.1 hi
      simp only [hi, hj, if_true, modifyFrame_bind]
      exact .ok (.some hoperands) ⟨h.world, by rw [h.frame], h.stack⟩
    · have hj : j.opcode ≠ .capture := fun hj => hi (hopcode.2 hj)
      simp only [hi, hj, if_false]
      exact .ok .none h

theorem agree_captureOf {i j : Instruction} (h : i.operands = j.operands) (shares : Bool) :
    Agree id Eq (captureOf i shares) (captureOf j shares) := by
  unfold captureOf
  rw [h]
  split
  · exact (blind_register _).bind fun value => blind_closedCell _
  · exact Blind.ite (blind_captureRegister _) (blind_closedCell _)
  · exact blind_upvalue _
  · exact blind_fault _

/-- Captures that do not look at hidden ones come out the same. -/
theorem same_captures {child child' : Prototype}
    (hheader : child.toPrototypeHeader = child'.toPrototypeHeader) (shares : Bool) (left : Nat)
    (h : s.PatchOf id t)
    (hlook : looksInCaptures id shares left s = false) :
    Same id Eq (captures child shares left s) (captures child' shares left t) := by
  -- on the captures that are left, each on the state after the one before it
  induction left generalizing s t with
  | zero => exact .ok rfl h
  | succ left ih =>
    simp only [looksInCaptures, Bool.or_eq_false_iff] at hlook
    obtain ⟨hhides, hrest⟩ := hlook
    have hname : child.name = child'.name := congrArg PrototypeHeader.name hheader
    have hcount : child.numUpvalues = child'.numUpvalues :=
      congrArg PrototypeHeader.numUpvalues hheader
    refine (same_nextCapture? h hhides).bind fun i? j? s' t' hs' hij h' => ?_
    rw [hs'] at hrest
    cases hij with
    | none =>
      simp only [hname, hcount]
      exact blind_fault _ _ _ h'
    | some hoperands =>
      refine (agree_captureOf hoperands shares _ _ h').bind fun c c' s'' t'' hs'' hc h'' => ?_
      simp only [hs''] at hrest
      cases hc
      exact (ih h'' hrest).bind fun cells _ _ _ _ hcells hlast => hcells ▸ .ok rfl hlast

theorem same_makeClosure (h : s.PatchOf id t) (target index : Nat) (shares : Bool)
    (hlook : looksInCaptures id shares (s.vm.prototype index).numUpvalues.toNat s = false) :
    Same id Eq (makeClosure target index shares s) (makeClosure target index shares t) := by
  have hheader := (h.vm.prototype index).header
  have hcount : (s.vm.prototype index).numUpvalues = (t.vm.prototype index).numUpvalues :=
    congrArg PrototypeHeader.numUpvalues hheader
  unfold makeClosure
  simp only [vm_bind, ← hcount]
  refine (same_captures hheader shares _ h hlook).bind fun cells cells' s' t' _ hcells h' => ?_
  cases hcells
  exact ((blind_createClosure _ _).bind fun f => blind_put _ _) _ _ h'

end Captures

/-! ## Looking operations -/

/-- An operation looks for another one at a slot where this is hidden from it. -/
def looks (id : VmId) (op : Opcode) (i : Instruction) (s : Running) : Bool :=
  match op with
  | .newClosure =>
    match i.operands.d with
    | .ofNat n =>
      match s.prototype.children[n]? with
      | some index => looksInCaptures id true (s.vm.prototype index).numUpvalues.toNat s
      | none => false
    | .negSucc _ => false
  | .dupClosure =>
    match i.constant with
    | .closure index =>
      decide (index < s.vm.module.prototypes.size) &&
        looksInCaptures id false (s.vm.prototype index).numUpvalues.toNat s
    | _ => false
  | .genericPrep =>
    s.vm.settings.generalizedIteration && !(s.frame.register i.operands.a).isFunction &&
      s.hides id .genericLoop (Frame.displace s.frame.pc i.operands.d)
  | .namecall =>
    s.vm.settings.useNativeNamecall && s.vm.settings.namecallHandler.isSome &&
      s.hides id .call (Frame.displace s.frame.pc 1)
  | _ => false

section Looking

variable {s t : Running} {i : Instruction}

theorem same_newClosure (h : s.PatchOf id t) (hlook : looks id .newClosure i s = false) :
    Same id Eq (newClosure i s) (newClosure i t) := by
  have hchildren : s.prototype.children = t.prototype.children :=
    congrArg PrototypeHeader.children h.prototype.header
  unfold newClosure
  simp only [prototype_bind, ← hchildren]
  rcases hd : i.operands.d with n | n
  · dsimp only
    rcases hindex : s.prototype.children[n]? with _ | index
    · exact blind_fault _ _ _ h
    · simp only [looks, hd, hindex] at hlook
      exact same_makeClosure h _ _ _ hlook
  · exact blind_fault _ _ _ h

theorem same_dupClosure (h : s.PatchOf id t) (hlook : looks id .dupClosure i s = false) :
    Same id Eq (dupClosure i s) (dupClosure i t) := by
  have hsize := h.vm.module.size
  unfold dupClosure
  cases hconstant : i.constant with
  | closure index =>
    simp only [vm_bind, ← hsize]
    by_cases hlt : index < s.vm.module.prototypes.size
    · simp only [looks, hconstant, hlt, decide_true, Bool.true_and] at hlook
      simp only [hlt, if_true]
      exact same_makeClosure h _ _ _ hlook
    · simp only [hlt, if_false]
      exact blind_fault _ _ _ h
  | _ => exact blind_fault _ _ _ h

theorem agree_loopArity {loop loop' : Instruction} (h : loop.constant = loop'.constant) :
    Agree id Eq (loopArity loop) (loopArity loop') := by
  unfold loopArity
  rw [h]
  exact blind_loopArity loop'

theorem same_genericPrep (h : s.PatchOf id t) (hlook : looks id .genericPrep i s = false) :
    Same id Eq (genericPrep i s) (genericPrep i t) := by
  unfold genericPrep
  simp only [register_bind, settings_bind, ← h.frame, ← h.vm.settings]
  simp only [looks] at hlook
  by_cases hiterates :
      (s.vm.settings.generalizedIteration && !(s.frame.register i.operands.a).isFunction) = true
  · simp only [hiterates, if_true, prototype_bind, get_bind, ← h.frame]
    rw [hiterates, Bool.true_and] at hlook
    have hslot := h.opcode_iff (by decide) hlook
    generalize Frame.displace s.frame.pc i.operands.d = slot at hslot ⊢
    rcases rel_cases hslot with ⟨hs, ht⟩ | ⟨loop, loop', hs, ht, -, hconstant, hopcode⟩ <;>
      rw [hs, ht]
    · exact ((blind_fault _).bind fun _ => blind_jump _) _ _ h
    · dsimp only
      by_cases hl : loop.opcode = .genericLoop
      · have hl' : loop'.opcode = .genericLoop := hopcode.1 hl
        simp only [hl, hl', if_true]
        refine ((agree_loopArity hconstant).bind fun arity arity' harity => ?_) _ _ h
        cases harity
        refine (blind_ofExcept _).bind fun bridge => ?_
        exact (blind_modifyFrame _).bind fun _ => blind_jump _
      · have hl' : loop'.opcode ≠ .genericLoop := fun hl' => hl (hopcode.2 hl')
        simp only [hl, hl', if_false]
        exact ((blind_fault _).bind fun _ => blind_jump _) _ _ h
  · simp only [hiterates]
    exact blind_jump _ _ _ h

theorem same_offeredCall? (h : s.PatchOf id t)
    (hlook : (s.vm.settings.useNativeNamecall && s.hides id .call s.frame.pc) = false) :
    Same id (Option.Rel fun i j => i.operands = j.operands) (offeredCall? s) (offeredCall? t) := by
  unfold offeredCall?
  simp only [settings_bind, ← h.vm.settings]
  by_cases huse : s.vm.settings.useNativeNamecall = true
  · rw [huse, Bool.true_and] at hlook
    have hslot := h.opcode_iff (by decide) hlook
    simp only [huse, Bool.not_true, Bool.false_eq_true, if_false, prototype_bind, get_bind,
      ← h.frame]
    rcases rel_cases hslot with ⟨hs, ht⟩ | ⟨i, j, hs, ht, hoperands, -, hopcode⟩ <;> rw [hs, ht]
    · exact .ok .none h
    · dsimp only
      by_cases hi : i.opcode = .call
      · have hj : j.opcode = .call := hopcode.1 hi
        simp only [hi, hj, if_true]
        exact .ok (.some hoperands) h
      · have hj : j.opcode ≠ .call := fun hj => hi (hopcode.2 hj)
        simp only [hi, hj, if_false]
        exact .ok .none h
  · simp only [huse, Bool.not_false, if_true]
    exact .ok .none h

/-- Looking for the call that follows changes nothing. -/
theorem offeredCall?_state (s : Running) : ∃ offered, offeredCall? s = .ok offered s := by
  unfold offeredCall?
  simp only [settings_bind]
  split
  · exact ⟨_, rfl⟩
  · simp only [prototype_bind, get_bind]
    cases s.prototype.code[s.frame.pc]?.map Slot.asInstruction <;> exact ⟨_, rfl⟩

/-- What a handler does with a call does not depend on breakpoints. -/
theorem blind_handled (handler : Bytes → List Value → HookProgram (Option (List Value)))
    (method : Value) (base argField resultField : Nat) (reinvokes : Bool) :
    Blind id (do
      let args ← values (base + 1) (← countFrom (base + 1) argField)
      match ← perform (handler method.toText args) with
      | none => return false
      | some results =>
        if !reinvokes then callHooks
        modifyFrame fun f => { f with current := f.pc, pc := f.pc + 1 }
        storeResults base resultField results
        return true) := by
  refine (blind_countFrom _ _).bind fun count => ?_
  refine (blind_values _ _).bind fun args => ?_
  refine (blind_perform _).bind fun answer => ?_
  cases answer with
  | none => exact blind_pure _
  | some results =>
    have hstore : Blind id (do
        modifyFrame fun f => { f with current := f.pc, pc := f.pc + 1 }
        storeResults base resultField results
        return true) := by
      refine (blind_modifyFrame _).bind fun _ => ?_
      exact (blind_storeResults _ _ _).bind fun _ => blind_pure _
    exact .ite (blind_callHooks.bind fun _ => hstore) hstore

theorem same_offerNamecall (h : s.PatchOf id t) (method : Value)
    (hlook : (s.vm.settings.useNativeNamecall && s.vm.settings.namecallHandler.isSome &&
      s.hides id .call s.frame.pc) = false) :
    Same id Eq (offerNamecall method s) (offerNamecall method t) := by
  unfold offerNamecall
  simp only [settings_bind, ← h.vm.settings]
  cases hhandler : s.vm.settings.namecallHandler with
  | none =>
    obtain ⟨offered, hs⟩ := offeredCall?_state s
    obtain ⟨offered', ht⟩ := offeredCall?_state t
    have hoffered : Same id (fun _ _ => True) (offeredCall? s) (offeredCall? t) := by
      rw [hs, ht]
      exact .ok trivial h
    exact hoffered.bind fun _ _ _ _ _ _ h' => .ok rfl h'
  | some handler =>
    rw [hhandler, Option.isSome_some, Bool.and_true] at hlook
    refine (same_offeredCall? h hlook).bind fun i? j? s' t' _ hij h' => ?_
    cases hij with
    | none => exact .ok rfl h'
    | some hoperands =>
      simp only [hoperands]
      exact Blind.ite (blind_callHooks.bind fun _ => blind_handled handler _ _ _ _ _)
        (blind_handled handler _ _ _ _ _) _ _ h'

theorem same_namecall (h : s.PatchOf id t) (hlook : looks id .namecall i s = false) :
    Same id Eq (namecall i s) (namecall i t) := by
  unfold namecall
  simp only [register_bind, put_bind, jump_bind, ← h.frame]
  refine Same.bind (same_offerNamecall ?patch _ ?look) fun taken taken' s' t' _ htaken h' => ?_
  case patch => exact ⟨h.world, rfl, h.stack⟩
  case look => exact hlook
  cases htaken
  exact Blind.ite ((blind_getField _ _).bind fun value => blind_put _ _) (blind_pure _) _ _ h'

end Looking

/-! ## All operations -/

/-- The operations that do not look at the code around them. -/
theorem blind_executePlain (op : Opcode) (i : Instruction) (hclosure : op ≠ .newClosure)
    (hconstant : op ≠ .dupClosure) (hloop : op ≠ .genericPrep) (hmethod : op ≠ .namecall) :
    Blind id (executePlain op i) := by
  cases op with
  | newClosure => exact absurd rfl hclosure
  | dupClosure => exact absurd rfl hconstant
  | genericPrep => exact absurd rfl hloop
  | namecall => exact absurd rfl hmethod
  | nop | «breakpoint» | prepVarargs | fastCall | fastCall1 | call | ret | genericLoop =>
    exact blind_pure _
  | fastCall2 | fastCall2Constant | fastCall3 | jump => exact blind_jump _
  | nativeCall | capture => exact blind_fault _
  | coverage => exact blind_countHit
  | loadNil | loadInteger | loadConstant => exact blind_put _ _
  | loadBoolean | loadConstantExtended => exact (blind_put _ _).bind fun _ => blind_jump _
  | move | not => exact (blind_register _).bind fun value => blind_put _ _
  | getGlobal =>
    exact (blind_getGlobal _).bind fun value => (blind_put _ _).bind fun _ => blind_jump _
  | setGlobal =>
    exact (blind_register _).bind fun value => (blind_setGlobal _ _).bind fun _ => blind_jump _
  | getImport =>
    exact (blind_getImport _).bind fun value => (blind_put _ _).bind fun _ => blind_jump _
  | getUpvalue =>
    refine (blind_upvalue _).bind fun cell => ?_
    exact (blind_readCell _).bind fun value => blind_put _ _
  | setUpvalue =>
    refine (blind_upvalue _).bind fun cell => ?_
    exact (blind_register _).bind fun value => blind_writeCell _ _
  | closeUpvalues => exact blind_closeFrom _
  | getTable =>
    refine (blind_register _).bind fun object => ?_
    refine (blind_register _).bind fun key => ?_
    exact (blind_getField _ _).bind fun value => blind_put _ _
  | setTable =>
    refine (blind_register _).bind fun object => ?_
    refine (blind_register _).bind fun key => ?_
    exact (blind_register _).bind fun value => blind_setField _ _ _
  | getField =>
    refine (blind_register _).bind fun object => ?_
    refine (blind_getField _ _).bind fun value => ?_
    exact (blind_put _ _).bind fun _ => blind_jump _
  | setField =>
    refine (blind_register _).bind fun object => ?_
    refine (blind_register _).bind fun value => ?_
    exact (blind_setField _ _ _).bind fun _ => blind_jump _
  | getItem =>
    refine (blind_register _).bind fun object => ?_
    exact (blind_getField _ _).bind fun value => blind_put _ _
  | setItem =>
    refine (blind_register _).bind fun object => ?_
    exact (blind_register _).bind fun value => blind_setField _ _ _
  | newTable =>
    exact blind_createTable.bind fun t => (blind_put _ _).bind fun _ => blind_jump _
  | dupTable => exact blind_createTable.bind fun t => blind_put _ _
  | setList => exact blind_setList _
  | jumpBack | jumpExtended => exact (blind_interrupt _).bind fun _ => blind_jump _
  | jumpIf | jumpIfNot =>
    exact (blind_register _).bind fun value => .ite (blind_jump _) (blind_pure _)
  | jumpIfEqual | jumpIfLessEqual | jumpIfLess | jumpIfNotEqual | jumpIfNotLessEqual
  | jumpIfNotLess => exact blind_compare _ _ _
  | jumpIfNil | jumpIfBoolean | jumpIfNumber | jumpIfString => exact blind_compareConstant _ _
  | add | sub | mul | div | mod | pow | idiv => exact blind_onRegisters _ _
  | addConstant | subConstant | mulConstant | divConstant | modConstant | powConstant
  | idivConstant => exact blind_withConstant _ _
  | subFromConstant | divFromConstant => exact blind_fromConstant _ _
  | and | or => exact blind_select _ _ (blind_register _)
  | andConstant | orConstant => exact blind_select _ _ (blind_pure _)
  | minus =>
    refine (blind_register _).bind fun value => ?_
    exact (blind_ofExcept _).bind fun result => blind_put _ _
  | length =>
    refine (blind_register _).bind fun value => Blind.frame_bind fun s t hst => ?_
    rw [hst.world.heap]
    exact (blind_ofExcept _).bind fun result => blind_put _ _
  | concat =>
    refine Blind.frame_bind fun s t hst => ?_
    rw [hst.frame]
    exact (blind_ofExcept _).bind fun result => blind_put _ _
  | getVarargs => exact blind_getVarargs _
  | numericPrep => exact blind_numericPrep _
  | numericLoop => exact blind_numericLoop _
  | genericPrepIndexed | genericPrepNext => exact blind_functionPrep _

/-- Operations from which nothing is hidden that they look for come out the same. -/
theorem same_execute {s t : Running} (op : Opcode) (i : Instruction) (h : s.PatchOf id t)
    (hlook : looks id op i s = false) : Same id Eq (execute op i s) (execute op i t) := by
  have hplain : Same id Eq (executePlain op i s) (executePlain op i t) := by
    by_cases hclosure : op = .newClosure
    · subst hclosure
      exact same_newClosure h hlook
    by_cases hconstant : op = .dupClosure
    · subst hconstant
      exact same_dupClosure h hlook
    by_cases hloop : op = .genericPrep
    · subst hloop
      exact same_genericPrep h hlook
    by_cases hmethod : op = .namecall
    · subst hmethod
      exact same_namecall h hlook
    exact blind_executePlain op i hclosure hconstant hloop hmethod _ _ h
  unfold execute
  split
  · exact blind_call i _ _ h
  · exact blind_ret i _ _ h
  · exact blind_genericLoop i _ _ h
  · exact hplain.bind fun _ _ _ _ _ _ h' => .ok rfl h'

/-- What an instruction does is a matter of the operation that runs and of its operands. -/
theorem execute_withOpcode (op : Opcode) (i : Instruction) (opcode : Opcode) :
    execute op { i with opcode } = execute op i := by
  cases op <;> rfl

end Effect

end ScriptMachine
