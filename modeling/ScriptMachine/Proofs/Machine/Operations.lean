import ScriptMachine.Proofs.Machine.Blindness

/-!
# Operations that are blind to breakpoints

All operations are blind that do not look at the code around them: they go by registers, tables,
captured variables and settings alone.
-/

namespace ScriptMachine

namespace Effect

variable {id : VmId}

/-! ## Globals and fields -/

theorem blind_getGlobal (key : Value) : Blind id (getGlobal key) := by
  refine Agree.vm_bind fun v u allowed hv => ?_
  rw [hv.settings, hv.environment]
  cases u.environment with
  | some globals =>
    cases u.settings.extensions with
    | some t => exact (blind_getKey t key).bind fun _ => .ite (blind_pure _) (blind_getKey _ _)
    | none => exact (blind_pure _).bind fun _ => .ite (blind_pure _) (blind_getKey _ _)
  | none =>
    cases u.settings.extensions with
    | some t => exact (blind_getKey t key).bind fun _ => .ite (blind_pure _) (blind_pure _)
    | none => exact (blind_pure _).bind fun _ => .ite (blind_pure _) (blind_pure _)

theorem blind_setGlobal (key value : Value) : Blind id (setGlobal key value) := by
  refine Agree.vm_bind fun v u allowed hv => ?_
  rw [hv.environment]
  split
  · exact blind_setKey _ _ _
  · exact blind_fault _

theorem blind_getField (object key : Value) : Blind id (getField object key) := by
  refine blind_settings.bind fun settings => ?_
  split
  · exact blind_getKey _ _
  · exact blind_getKey _ _
  · split
    · exact blind_pure _
    · exact blind_fault _
  · exact blind_fault _

theorem blind_setField (object key value : Value) : Blind id (setField object key value) := by
  unfold setField
  split
  · exact blind_setKey _ _ _
  · exact blind_fault _

theorem blind_getImport (path : ImportPath) : Blind id (getImport path) := by
  refine blind_settings.bind fun settings => ?_
  split
  · exact blind_pure _
  · refine (blind_getGlobal _).bind fun first => ?_
    have hrest : ∀ value : Value, Blind id
        (if 3 ≤ path.count then getField value path.third else pure value : Effect Value) :=
      fun value => Blind.ite (blind_getField _ _) (blind_pure _)
    exact Blind.ite ((blind_getField _ _).bind hrest) ((blind_pure _).bind hrest)

/-! ## Calls and results -/

theorem blind_values (first count : Nat) : Blind id (values first count) :=
  (blind_ensure _).bind fun _ => blind_of fun _ _ _ _ hworld => .ok rfl ⟨hworld, rfl, rfl⟩

theorem blind_storeResults (base wanted : Nat) (results : List Value) :
    Blind id (storeResults base wanted results) :=
  Blind.ite ((blind_ensure _).bind fun _ => blind_modifyFrame _)
    ((blind_ensure _).bind fun _ => blind_modifyFrame _)

theorem blind_call (i : Instruction) : Blind id (call i) := by
  refine (blind_interrupt _).bind fun _ => ?_
  refine (blind_countFrom _ _).bind fun count => ?_
  refine (blind_values _ _).bind fun args => ?_
  exact (blind_register _).bind fun function => blind_pure _

theorem blind_ret (i : Instruction) : Blind id (ret i) := by
  refine (blind_interrupt _).bind fun _ => ?_
  refine (blind_countFrom _ _).bind fun count => ?_
  refine Blind.ite (blind_pure _) ?_
  exact (blind_values _ _).bind fun values => blind_pure _

theorem blind_getVarargs (i : Instruction) : Blind id (getVarargs i) := by
  refine Blind.frame_bind fun s t hst => ?_
  rw [hst.frame]
  exact blind_storeResults _ _ _

theorem blind_setItems (t : TableId) (first : Nat) (items : List Value) :
    Blind id (setItems t first items) := by
  induction items generalizing first with
  | nil => exact blind_pure ()
  | cons value others ih => exact (blind_setKey _ _ _).bind fun _ => ih (first + 1)

theorem blind_setList (i : Instruction) : Blind id (setList i) := by
  refine (blind_register _).bind fun target => ?_
  split
  · refine (blind_countFrom _ _).bind fun count => ?_
    have hrest : ∀ (t : TableId) (items : List Value), Blind id (do
        setItems t i.aux.toNat items
        jump 1) := fun t items => (blind_setItems _ _ _).bind fun _ => blind_jump _
    exact Blind.ite ((blind_pure _).bind (hrest _)) ((blind_values _ _).bind (hrest _))
  · exact blind_fault _

theorem blind_callHooks : Blind id callHooks := by
  refine Blind.frame_bind fun s t hst => ?_
  rw [hst.frame]
  refine (blind_modifyFrame _).bind fun _ => ?_
  refine (blind_stepHook _).bind fun _ => ?_
  exact (blind_interrupt _).bind fun _ => blind_modifyFrame _

/-! ## Loops -/

theorem blind_loopNumber (slot : Nat) (which : LoopNumber) : Blind id (loopNumber slot which) := by
  refine (blind_register _).bind fun value => ?_
  cases value.toNumber? with
  | some n => exact blind_pure n
  | none => exact blind_fault _

theorem blind_numericPrep (i : Instruction) : Blind id (numericPrep i) := by
  refine (blind_loopNumber _ _).bind fun limit => ?_
  refine (blind_loopNumber _ _).bind fun step => ?_
  refine (blind_loopNumber _ _).bind fun index => ?_
  refine (blind_put _ _).bind fun _ => ?_
  refine (blind_put _ _).bind fun _ => ?_
  refine (blind_put _ _).bind fun _ => ?_
  exact .ite (blind_jump _) (blind_pure _)

theorem blind_numberIn (slot : Nat) : Blind id (numberIn slot) := by
  refine (blind_register _).bind fun value => ?_
  split
  · exact blind_pure _
  · exact blind_throw _

theorem blind_numericLoop (i : Instruction) : Blind id (numericLoop i) := by
  refine (blind_interrupt _).bind fun _ => ?_
  refine (blind_numberIn _).bind fun limit => ?_
  refine (blind_numberIn _).bind fun step => ?_
  refine (blind_numberIn _).bind fun index => ?_
  refine (blind_put _ _).bind fun _ => ?_
  exact .ite (blind_jump _) (blind_pure _)

theorem blind_loopArity (i : Instruction) : Blind id (loopArity i) := by
  unfold loopArity
  split
  · exact blind_pure _
  · exact blind_throw _

theorem blind_functionPrep (i : Instruction) : Blind id (functionPrep i) :=
  (blind_register _).bind fun _ => .ite (blind_jump _) (blind_fault _)

theorem blind_storeRound (base arity : Nat) (distance : Int) (results : List Value) :
    Blind id (storeRound base arity distance results) := by
  refine (blind_modifyFrame _).bind fun _ => ?_
  refine (blind_register _).bind fun control => ?_
  exact .ite (blind_jump _) ((blind_put _ _).bind fun _ => blind_jump _)

theorem blind_stepIterator (iterated : Value) : Blind id (stepIterator iterated) := by
  refine blind_of fun w u f k hworld => ?_
  unfold stepIterator
  simp only [hworld.heap]
  split
  · exact .error ⟨hworld, rfl, rfl⟩
  · split
    · exact .ok rfl ⟨hworld, rfl, rfl⟩
    · exact .error ⟨hworld, rfl, rfl⟩

theorem blind_genericLoop (i : Instruction) : Blind id (genericLoop i) := by
  refine (blind_interrupt _).bind fun _ => ?_
  refine (blind_loopArity _).bind fun arity => ?_
  refine (blind_ensure _).bind fun _ => ?_
  refine (blind_modifyFrame _).bind fun _ => ?_
  refine (blind_register _).bind fun iterated => ?_
  refine blind_settings.bind fun settings => ?_
  refine .ite ?call ?traversal
  case call =>
    refine (blind_register _).bind fun state => ?_
    exact (blind_register _).bind fun control => blind_pure _
  case traversal =>
    refine (blind_stepIterator _).bind fun round => ?_
    split
    · refine (blind_modifyFrame _).bind fun _ => ?_
      exact (blind_jump _).bind fun _ => blind_pure _
    · refine (blind_modifyFrame _).bind fun _ => ?_
      refine (blind_register _).bind fun control => ?_
      refine (blind_put _ _).bind fun _ => ?_
      exact (blind_jump _).bind fun _ => blind_pure _

/-! ## Operators and tests -/

theorem blind_arithmetic (op : ArithmeticOp) (i : Instruction) {left right : Effect Value}
    (hleft : Blind id left) (hright : Blind id right) :
    Blind id (arithmetic op i left right) := by
  refine hleft.bind fun x => ?_
  refine hright.bind fun y => ?_
  exact (blind_ofExcept _).bind fun value => blind_put _ _

theorem blind_onRegisters (op : ArithmeticOp) (i : Instruction) : Blind id (onRegisters op i) :=
  blind_arithmetic op i (blind_register _) (blind_register _)

theorem blind_withConstant (op : ArithmeticOp) (i : Instruction) : Blind id (withConstant op i) :=
  blind_arithmetic op i (blind_register _) (blind_pure _)

theorem blind_fromConstant (op : ArithmeticOp) (i : Instruction) : Blind id (fromConstant op i) :=
  blind_arithmetic op i (blind_pure _) (blind_register _)

theorem blind_select (truth : Bool) (i : Instruction) {second : Effect Value}
    (hsecond : Blind id second) : Blind id (select truth i second) := by
  refine (blind_register _).bind fun first => ?_
  exact .ite (blind_put _ _) (hsecond.bind fun value => blind_put _ _)

theorem blind_branch (i : Instruction) (condition : Bool) : Blind id (branch i condition) :=
  blind_jump _

theorem blind_compare (i : Instruction) (expected : Bool)
    (test : Value → Value → Except Fault Bool) :
    Blind id (compare i expected test) := by
  refine Blind.frame_bind fun s t hst => ?_
  rw [hst.frame]
  have htest : Blind id (do
      let outcome ← ofExcept (test (← register i.operands.a) (← register i.aux.toNat))
      branch i (outcome == expected)) := by
    refine (blind_register _).bind fun x => ?_
    refine (blind_register _).bind fun y => ?_
    exact (blind_ofExcept _).bind fun outcome => blind_branch _ _
  exact Blind.ite ((blind_fault _).bind fun _ => htest) htest

theorem blind_compareConstant (i : Instruction) (test : Value → Bool) :
    Blind id (compareConstant i test) :=
  (blind_register _).bind fun _ => blind_branch _ _

/-- Hits are counted for breakpoints as for what they stand in for. -/
theorem blind_countHit : Blind id countHit := by
  refine Blind.frame_bind fun s t hst => ?_
  rw [hst.frame]
  intro s' t' hst'
  refine .ok rfl ⟨?_, hst'.frame, hst'.stack⟩
  exact hst'.world.modifyVm _ fun v u _ _ hv => { hv with module := hv.module.countHit _ _ }

end Effect

end ScriptMachine
