import ScriptMachine.Proofs.Machine.Steps

/-!
# Where breakpoints show

An instruction that looks for a hidden operation does not find it.  A closure that misses a capture
and a loop that misses its end raise a fault, which they do not raise where the operation is not
hidden.  A method call that is not found is not offered to the host, while it is offered where it is
found.
-/

namespace ScriptMachine

namespace Effect

/-- The effect raises a fault on a state. -/
def Raises {α : Type} (x : Effect α) (s : Running) (f : Fault) : Prop :=
  ∃ s', x s = .error (.fault f) s'

/-! ## Faults in a sequence -/

section Sequences

variable {α β : Type} {x : Effect α} {g : α → Effect β} {s : Running} {f : Fault}

theorem Raises.bind (h : Raises x s f) : Raises (x >>= g) s f := by
  obtain ⟨s', h⟩ := h
  refine ⟨s', ?_⟩
  show EStateM.bind x g s = _
  unfold EStateM.bind
  rw [h]

theorem raises_bind_of_ok {a : α} {s' : Running} (h : x s = .ok a s') :
    Raises (x >>= g) s f ↔ Raises (g a) s' f := by
  unfold Raises
  rw [bind_of_ok h]

/-- A sequence raises a fault in its first part or in what follows. -/
theorem Raises.of_bind (h : Raises (x >>= g) s f) :
    Raises x s f ∨ ∃ a s', x s = .ok a s' ∧ Raises (g a) s' f := by
  cases hx : x s with
  | ok a s' => exact .inr ⟨a, s', rfl, (raises_bind_of_ok hx).1 h⟩
  | error failure s' =>
    obtain ⟨s'', h⟩ := h
    have hbind : (x >>= g) s = .error failure s' := by
      show EStateM.bind x g s = _
      unfold EStateM.bind
      rw [hx]
    rw [hbind] at h
    cases h
    exact .inl ⟨_, hx⟩

theorem raises_vm_bind {g : Vm → Effect β} : Raises (vm >>= g) s f ↔ Raises (g s.vm) s f := .rfl

theorem raises_prototype_bind {g : Prototype → Effect β} :
    Raises (prototype >>= g) s f ↔ Raises (g s.prototype) s f := .rfl

theorem not_raises_pure {a : α} : ¬ Raises (pure a) s f := by
  rintro ⟨s', h⟩
  cases h

/-- What comes out of the second of two effects that have come out the same. -/
theorem Same.of_ok {id : VmId} {R : α → β → Prop} {a : α} {r : EStateM.Result Failure Running β}
    (h : Same id R (.ok a s) r) : ∃ b t, r = .ok b t ∧ R a b ∧ s.PatchOf id t := by
  cases h with
  | ok value state => exact ⟨_, _, rfl, value, state⟩

end Sequences

/-! ## Hidden operations -/

section Hidden

variable {id : VmId} {s t : Running} {op : Opcode} {slot : Nat}

/-- Where an operation is hidden, another one runs. -/
theorem hides_slot (h : s.hides id op slot = true) :
    ∃ i, s.prototype.code[slot]?.map Slot.asInstruction = some i ∧ i.opcode ≠ op := by
  unfold Running.hides Prototype.hides Prototype.underlyingAt? Prototype.opcodeAt? at h
  cases hslot : s.prototype.code[slot]? with
  | none => simp [hslot] at h
  | some c =>
    refine ⟨c.asInstruction, rfl, ?_⟩
    intro hop
    simp [hslot, hop] at h

/-- Where an operation is hidden in a patch but not in what it patches, it runs there. -/
theorem found_slot (h : s.PatchOf id t) (hs : s.hides id op slot = true)
    (ht : t.hides id op slot = false) :
    ∃ j, t.prototype.code[slot]?.map Slot.asInstruction = some j ∧ j.opcode = op := by
  have hunderlying : t.prototype.underlyingAt? slot = some op := by
    rw [← h.prototype.underlyingAt?]
    simp only [Running.hides, Prototype.hides, Bool.and_eq_true, beq_iff_eq] at hs
    exact hs.2.1
  have hvm : t.frame.vm = id := by
    rw [← h.frame]
    simp only [Running.hides, Bool.and_eq_true, beq_iff_eq] at hs
    exact hs.1
  have hopcode : t.prototype.opcodeAt? slot = some op := by
    simpa [Running.hides, Prototype.hides, hvm, hunderlying] using ht
  unfold Prototype.opcodeAt? at hopcode
  cases hslot : t.prototype.code[slot]? with
  | none => simp [hslot] at hopcode
  | some c =>
    refine ⟨c.asInstruction, rfl, ?_⟩
    simpa [hslot] using hopcode

end Hidden

/-! ## Captures -/

section Captures

variable {id : VmId} {s t : Running}

theorem nextCapture?_of_hidden (h : s.hides id .capture s.frame.pc = true) :
    nextCapture? s = .ok none s := by
  obtain ⟨i, hi, hne⟩ := hides_slot h
  unfold nextCapture?
  simp only [prototype_bind, get_bind, hi, hne, if_false]
  rfl

theorem nextCapture?_of_found {j : Instruction}
    (h : t.prototype.code[t.frame.pc]?.map Slot.asInstruction = some j)
    (hj : j.opcode = .capture) : ∃ t', nextCapture? t = .ok (some j) t' := by
  refine ⟨{ t with frame := { t.frame with pc := t.frame.pc + 1 } }, ?_⟩
  unfold nextCapture?
  simp only [prototype_bind, get_bind, h, hj, if_true]
  rfl

/-- A capture that is there is not missed, though it may be wrong in other ways. -/
theorem not_raises_captureOf {i : Instruction} {shares : Bool} {got wanted : Nat} {name : Bytes} :
    ¬ Raises (captureOf i shares) t (.missingCapture got wanted name) := by
  intro h
  unfold captureOf at h
  split at h
  · obtain ⟨t', h⟩ := h
    cases h
  · obtain ⟨t', h⟩ := h
    cases shares <;> cases h
  · obtain ⟨t', h⟩ := h
    unfold upvalue at h
    cases hcell : t.frame.upvalues[i.operands.b]? <;> rw [hcell] at h <;> cases h
  · obtain ⟨t', h⟩ := h
    cases h

theorem not_raises_nextCapture? {f : Fault} : ¬ Raises nextCapture? t f := by
  rintro ⟨t', h⟩
  unfold nextCapture? at h
  simp only [prototype_bind, get_bind] at h
  cases hslot : t.prototype.code[t.frame.pc]?.map Slot.asInstruction with
  | none =>
    rw [hslot] at h
    cases h
  | some i =>
    simp only [hslot] at h
    split at h <;> cases h

/-- The captures of a closure that are left count those before the one that they miss. -/
theorem Raises.captures_count {child : Prototype} {shares : Bool} {left got wanted : Nat}
    {name : Bytes} (hleft : left ≤ child.numUpvalues.toNat)
    (h : Raises (captures child shares left) t (.missingCapture got wanted name)) :
    child.numUpvalues.toNat < got + left := by
  induction left generalizing t with
  | zero => exact absurd h not_raises_pure
  | succ left ih =>
    unfold captures at h
    obtain hnext | ⟨i?, t', -, h⟩ := h.of_bind
    · exact absurd hnext not_raises_nextCapture?
    cases i? with
    | none =>
      obtain ⟨u, h⟩ := h
      cases h
      omega
    | some i =>
      obtain hcapture | ⟨first, u, -, h⟩ := h.of_bind
      · exact absurd hcapture not_raises_captureOf
      obtain hrest | ⟨cells, v, -, h⟩ := h.of_bind
      · have := ih (by omega) hrest
        omega
      · exact absurd h not_raises_pure

/-- A closure misses the capture that is hidden from it. -/
theorem raises_captures_of_hidden {child : Prototype} {shares : Bool} {left : Nat}
    (h : s.hides id .capture s.frame.pc = true) :
    Raises (captures child shares (left + 1)) s
      (.missingCapture (child.numUpvalues.toNat - left) child.numUpvalues.toNat child.name) := by
  unfold captures
  rw [raises_bind_of_ok (nextCapture?_of_hidden h)]
  exact ⟨s, rfl⟩

/-- A closure does not miss the capture that it finds. -/
theorem not_raises_captures_of_found {child : Prototype} {shares : Bool} {left wanted : Nat}
    {name : Bytes} {j : Instruction} {t' : Running} (hleft : left < child.numUpvalues.toNat)
    (hnext : nextCapture? t = .ok (some j) t') :
    ¬ Raises (captures child shares (left + 1)) t
      (.missingCapture (child.numUpvalues.toNat - left) wanted name) := by
  unfold captures
  rw [raises_bind_of_ok hnext]
  intro h
  obtain h | ⟨first, u, -, h⟩ := h.of_bind
  · exact not_raises_captureOf h
  obtain h | ⟨cells, v, -, h⟩ := h.of_bind
  · have := h.captures_count (by omega)
    omega
  · exact not_raises_pure h

/-- Once a capture has gone well, what is raised is raised by those that follow. -/
theorem raises_captures_succ {child : Prototype} {shares : Bool} {left : Nat} {j : Instruction}
    {t' v : Running} {cell : CellId} {f : Fault} (hnext : nextCapture? t = .ok (some j) t')
    (hcapture : captureOf j shares t' = .ok cell v) :
    Raises (captures child shares (left + 1)) t f ↔ Raises (captures child shares left) v f := by
  rw [captures, raises_bind_of_ok hnext]
  dsimp only
  rw [raises_bind_of_ok hcapture]
  constructor
  · intro h
    obtain h | ⟨cells, _, -, h⟩ := h.of_bind
    · exact h
    · exact absurd h not_raises_pure
  · intro h
    exact h.bind

/-- Where a capture is hidden in a patch only, its closure misses one that is there otherwise. -/
theorem captures_differ {child child' : Prototype}
    (hheader : child.toPrototypeHeader = child'.toPrototypeHeader) {shares : Bool} {left : Nat}
    (hleft : left ≤ child.numUpvalues.toNat) (h : s.PatchOf id t)
    (hs : looksInCaptures id shares left s = true)
    (ht : looksInCaptures id shares left t = false) :
    ∃ f, Raises (captures child shares left) s f ∧ ¬ Raises (captures child' shares left) t f := by
  induction left generalizing s t with
  | zero => cases hs
  | succ left ih =>
    simp only [looksInCaptures, Bool.or_eq_false_iff] at ht
    obtain ⟨htslot, htrest⟩ := ht
    by_cases hhides : s.hides id .capture s.frame.pc = true
    · -- the next capture is missed here and found there
      refine ⟨_, raises_captures_of_hidden hhides, ?_⟩
      have hcount : child.numUpvalues = child'.numUpvalues :=
        congrArg PrototypeHeader.numUpvalues hheader
      rw [h.frame] at hhides
      obtain ⟨j, hj, hcapture⟩ := found_slot h hhides htslot
      obtain ⟨t', hnext⟩ := nextCapture?_of_found hj hcapture
      rw [hcount] at hleft ⊢
      exact not_raises_captures_of_found (by omega) hnext
    · -- both find the next capture, and look at the same ones after it
      rw [Bool.not_eq_true] at hhides
      simp only [looksInCaptures, hhides, Bool.false_or] at hs
      have hnext := same_nextCapture? h hhides
      cases hs' : nextCapture? s with
      | error failure s' => simp [hs'] at hs
      | ok i? s' =>
        cases i? with
        | none => simp [hs'] at hs
        | some i =>
          rw [hs'] at hnext hs
          obtain ⟨j?, t', ht', hij, h'⟩ := hnext.of_ok
          cases hij
          rename_i j hoperands
          have hcapture := agree_captureOf hoperands shares _ _ h'
          cases hc : captureOf i shares s' with
          | error failure u => simp [hc] at hs
          | ok cell u =>
            rw [hc] at hcapture
            obtain ⟨cell', v, hv, rfl, huv⟩ := hcapture.of_ok
            simp only [hc] at hs
            simp only [ht', hv] at htrest
            obtain ⟨f, hraises, hnot⟩ := ih (by omega) huv hs htrest
            refine ⟨f, (raises_captures_succ hs' hc).2 hraises, fun hf => hnot ?_⟩
            exact (raises_captures_succ ht' hv).1 hf

/-- Nothing is missed once the captures of a closure are there. -/
theorem not_raises_createClosure {index target : Nat} {cells : Array CellId} {f : Fault} :
    ¬ Raises (do put target (.function (← createClosure index cells))) t f := by
  rintro ⟨t', h⟩
  cases h

theorem makeClosure_differ (h : s.PatchOf id t) (target index : Nat) (shares : Bool)
    (hs : looksInCaptures id shares (s.vm.prototype index).numUpvalues.toNat s = true)
    (ht : looksInCaptures id shares (t.vm.prototype index).numUpvalues.toNat t = false) :
    ∃ f, Raises (makeClosure target index shares) s f ∧
      ¬ Raises (makeClosure target index shares) t f := by
  have hheader := (h.vm.prototype index).header
  have hcount : (s.vm.prototype index).numUpvalues = (t.vm.prototype index).numUpvalues :=
    congrArg PrototypeHeader.numUpvalues hheader
  rw [← hcount] at ht
  obtain ⟨f, hraises, hnot⟩ := captures_differ hheader (Nat.le_refl _) h hs ht
  refine ⟨f, ?_, ?_⟩
  · unfold makeClosure
    rw [raises_vm_bind]
    exact hraises.bind
  · rw [hcount] at hnot
    unfold makeClosure
    rw [raises_vm_bind]
    intro hmake
    obtain hcaptures | ⟨cells, t', -, hmake⟩ := hmake.of_bind
    · exact hnot hcaptures
    · exact not_raises_createClosure hmake

end Captures

/-! ## Looking operations -/

section Looking

variable {id : VmId} {s t : Running} {i : Instruction}

theorem newClosure_differ (h : s.PatchOf id t) (hs : looks id .newClosure i s = true)
    (ht : looks id .newClosure i t = false) :
    ∃ f, Raises (newClosure i) s f ∧ ¬ Raises (newClosure i) t f := by
  have hchildren : s.prototype.children = t.prototype.children :=
    congrArg PrototypeHeader.children h.prototype.header
  rcases hd : i.operands.d with n | n
  · rcases hindex : s.prototype.children[n]? with _ | index
    · simp [looks, hd, hindex] at hs
    · simp only [looks, hd, hindex] at hs
      simp only [looks, hd, ← hchildren, hindex] at ht
      obtain ⟨f, hraises, hnot⟩ := makeClosure_differ h i.operands.a index true hs ht
      refine ⟨f, ?_, ?_⟩
      · unfold newClosure
        rw [raises_prototype_bind]
        simpa only [hd, hindex] using hraises
      · unfold newClosure
        rw [raises_prototype_bind]
        simpa only [hd, ← hchildren, hindex] using hnot
  · simp [looks, hd] at hs

theorem dupClosure_differ (h : s.PatchOf id t) (hs : looks id .dupClosure i s = true)
    (ht : looks id .dupClosure i t = false) :
    ∃ f, Raises (dupClosure i) s f ∧ ¬ Raises (dupClosure i) t f := by
  have hsize := h.vm.module.size
  cases hconstant : i.constant with
  | closure index =>
    simp only [looks, hconstant, Bool.and_eq_true, decide_eq_true_eq] at hs
    obtain ⟨hlt, hs⟩ := hs
    simp only [looks, hconstant, ← hsize, hlt, decide_true, Bool.true_and] at ht
    obtain ⟨f, hraises, hnot⟩ := makeClosure_differ h i.operands.a index false hs ht
    refine ⟨f, ?_, ?_⟩
    · unfold dupClosure
      simp only [hconstant]
      rw [raises_vm_bind, if_pos hlt]
      exact hraises
    · unfold dupClosure
      simp only [hconstant]
      rw [raises_vm_bind, ← hsize, if_pos hlt]
      exact hnot
  | _ => simp [looks, hconstant] at hs

/-- A loop over a table whose end is there is not started without it. -/
theorem not_raises_setIterator {loop : Instruction} {iterated : Value} {slot target : Nat}
    {distance : Int} :
    ¬ Raises (do
      let bridge ← ofExcept (Bridge.forValue iterated (← loopArity loop))
      modifyFrame fun f => f.setIterator slot bridge
      jump distance) t (.loopTarget target) := by
  intro hraises
  obtain harity | ⟨arity, t', -, hraises⟩ := hraises.of_bind
  · unfold loopArity at harity
    split at harity
    · exact not_raises_pure harity
    · obtain ⟨t', h⟩ := harity
      cases h
  obtain hbridge | ⟨bridge, t'', -, hraises⟩ := hraises.of_bind
  · obtain ⟨t'', h⟩ := hbridge
    cases iterated <;> cases h
  · obtain ⟨u, h⟩ := hraises
    cases h

theorem genericPrep_differ (h : s.PatchOf id t) (hs : looks id .genericPrep i s = true)
    (ht : looks id .genericPrep i t = false) :
    ∃ f, Raises (genericPrep i) s f ∧ ¬ Raises (genericPrep i) t f := by
  have hiterates : (s.vm.settings.generalizedIteration &&
      !(s.frame.register i.operands.a).isFunction) = true := by
    simp only [looks, Bool.and_eq_true] at hs ⊢
    exact hs.1
  simp only [looks, hiterates, Bool.true_and] at hs
  simp only [looks, ← h.frame, ← h.vm.settings, hiterates, Bool.true_and] at ht
  obtain ⟨loop, hloop, hne⟩ := hides_slot hs
  obtain ⟨loop', hloop', hend⟩ := found_slot h hs ht
  refine ⟨.loopTarget (Frame.displace s.frame.pc i.operands.d), ?_, ?_⟩
  · refine ⟨s, ?_⟩
    unfold genericPrep
    simp only [register_bind, settings_bind, hiterates, if_true, prototype_bind, get_bind, hloop,
      hne, if_false]
    rfl
  · rintro ⟨t', hraises⟩
    unfold genericPrep at hraises
    simp only [register_bind, settings_bind, ← h.frame, ← h.vm.settings, hiterates, if_true,
      prototype_bind, get_bind, hloop', hend] at hraises
    exact not_raises_setIterator ⟨t', hraises⟩

/-- The state after a method look-up has put the object in its place and gone to the call that
follows. -/
def lookedUp (i : Instruction) (s : Running) : Running :=
  { s with frame := (s.frame.put (i.operands.a + 1) (s.frame.register i.operands.b)).jump 1 }

/-- A method look-up offers the call that follows to the host. -/
def Offers (i : Instruction) (s : Running) : Prop :=
  s.vm.settings.namecallHandler.isSome = true ∧
    ∃ call, offeredCall? (lookedUp i s) = .ok (some call) (lookedUp i s)

/-- The call that follows is offered when it runs there, and the host wants to have calls
offered. -/
theorem offeredCall?_eq {call : Instruction} (huse : s.vm.settings.useNativeNamecall = true)
    (hslot : s.prototype.code[s.frame.pc]?.map Slot.asInstruction = some call) :
    offeredCall? s = .ok (if call.opcode = .call then some call else none) s := by
  unfold offeredCall?
  simp only [settings_bind, huse, Bool.not_true, Bool.false_eq_true, if_false, prototype_bind,
    get_bind, hslot]
  rfl

/-- A method look-up that does not offer its call fetches the method, whatever the handler is. -/
theorem namecall_of_not_offers (hkeeps : ¬ Offers i s) :
    namecall i s = (do
      put i.operands.a (← getField (s.frame.register i.operands.b) i.constant.value))
      (lookedUp i s) := by
  have hoffer : offerNamecall i.constant.value (lookedUp i s) = .ok false (lookedUp i s) := by
    obtain ⟨offered, hoffered⟩ := offeredCall?_state (lookedUp i s)
    unfold offerNamecall
    rw [settings_bind, bind_of_ok hoffered]
    cases hhandler : (lookedUp i s).vm.settings.namecallHandler with
    | none => rfl
    | some handler =>
      cases offered with
      | none => rfl
      | some call =>
        have hsome : s.vm.settings.namecallHandler = some handler := hhandler
        exact absurd ⟨by rw [hsome]; rfl, call, hoffered⟩ hkeeps
  unfold namecall
  rw [register_bind, put_bind, jump_bind]
  exact bind_of_ok hoffer

theorem namecall_differ (h : s.PatchOf id t) (hs : looks id .namecall i s = true)
    (ht : looks id .namecall i t = false) : ¬ Offers i s ∧ Offers i t := by
  simp only [looks, Bool.and_eq_true] at hs
  obtain ⟨⟨huse, hhandler⟩, hhides⟩ := hs
  simp only [looks, ← h.vm.settings, huse, hhandler, Bool.true_and, ← h.frame] at ht
  obtain ⟨call, hcall, hne⟩ := hides_slot hhides
  obtain ⟨call', hcall', hruns⟩ := found_slot h hhides ht
  rw [h.frame] at hcall'
  constructor
  · rintro ⟨-, offered, hoffered⟩
    rw [offeredCall?_eq (s := lookedUp i s) huse hcall, if_neg hne] at hoffered
    cases hoffered
  · rw [h.vm.settings] at huse hhandler
    refine ⟨hhandler, call', ?_⟩
    rw [offeredCall?_eq (s := lookedUp i t) huse hcall', if_pos hruns]

end Looking

end Effect

/-! ## Runs that come apart -/

/-- Two runs come apart at the operations that they are about to execute. -/
inductive Machine.Apart (m n : Machine) : Prop where
  /-- One operation raises a fault that the other does not raise. -/
  | fault {i j : Instruction} {s t : Running} {f : Fault} (left : m.executing? = some (i, s))
      (right : n.executing? = some (j, t))
      (raises : Effect.Raises (Effect.execute i.operation i) s f)
      (passes : ¬ Effect.Raises (Effect.execute j.operation j) t f)
  /-- One method look-up offers its call to the host and the other does not. -/
  | offer {i j : Instruction} {s t : Running} (left : m.executing? = some (i, s))
      (right : n.executing? = some (j, t)) (namecall : i.operation = .namecall)
      (namecall' : j.operation = .namecall) (keeps : ¬ Effect.Offers i s)
      (offers : Effect.Offers j t)

namespace Effect

variable {id : VmId} {s t : Running} {i j : Instruction}

/-- What an instruction looks for is the same with a breakpoint. -/
theorem looks_patch {allowed : Prop} (h : i.PatchOf allowed j) (s : Running) :
    looks id i.operation i s = looks id j.operation j s := by
  rw [← h.operation, h.same]
  cases i.operation <;> rfl

theorem offers_patch {allowed : Prop} (h : i.PatchOf allowed j) :
    Offers i t ↔ Offers j t := by
  rw [h.same]
  rfl

/-- What an operation raises that only goes on to the next instruction. -/
theorem raises_execute {op : Opcode} (hop : op = .newClosure ∨ op = .dupClosure ∨ op = .genericPrep)
    {f : Fault} : Raises (execute op i) s f ↔ Raises (executePlain op i) s f := by
  have hnext : execute op i = do executePlain op i; return .next := by
    rcases hop with rfl | rfl | rfl <;> rfl
  rw [hnext]
  constructor
  · intro h
    obtain h | ⟨_, _, -, h⟩ := h.of_bind
    · exact h
    · exact absurd h not_raises_pure
  · exact fun h => h.bind

/-- Operations from which something is hidden on one side only either raise a fault there that they
do not raise otherwise, or do not offer a call that they offer otherwise. -/
theorem execute_differ (op : Opcode) (h : s.PatchOf id t) (hs : looks id op i s = true)
    (ht : looks id op i t = false) :
    (∃ f, Raises (execute op i) s f ∧ ¬ Raises (execute op i) t f) ∨
      op = .namecall ∧ ¬ Offers i s ∧ Offers i t := by
  have hraises : (op = .newClosure ∨ op = .dupClosure ∨ op = .genericPrep) →
      (∃ f, Raises (executePlain op i) s f ∧ ¬ Raises (executePlain op i) t f) →
      ∃ f, Raises (execute op i) s f ∧ ¬ Raises (execute op i) t f := by
    rintro hop ⟨f, hf, hnot⟩
    exact ⟨f, (raises_execute hop).2 hf, fun hf' => hnot ((raises_execute hop).1 hf')⟩
  by_cases hclosure : op = .newClosure
  · subst hclosure
    exact .inl (hraises (by simp) (newClosure_differ h hs ht))
  by_cases hconstant : op = .dupClosure
  · subst hconstant
    exact .inl (hraises (by simp) (dupClosure_differ h hs ht))
  by_cases hloop : op = .genericPrep
  · subst hloop
    exact .inl (hraises (by simp) (genericPrep_differ h hs ht))
  by_cases hmethod : op = .namecall
  · subst hmethod
    exact .inr ⟨rfl, namecall_differ h hs ht⟩
  -- no other operation looks
  cases op <;> contradiction

end Effect

namespace Machine

variable {id : VmId} {m n : Machine}

/-- The operations that come next are the same but for breakpoints that have been passed. -/
theorem executing?_patch (h : m.PatchOf id n) :
    Option.Rel (fun x y => (∃ allowed, x.1.PatchOf allowed y.1) ∧ x.2.PatchOf id y.2) m.executing?
      n.executing? := by
  rcases m with ⟨w, stack, control⟩
  rcases n with ⟨u, stack', control'⟩
  obtain ⟨hworld, rfl, rfl⟩ := h
  dsimp only at hworld
  cases control with
  | run f =>
    unfold executing?
    dsimp only
    rcases rel_cases (nextInstruction?_patch hworld f stack) with ⟨hi, hj⟩ | ⟨i, j, hi, hj, hij⟩ <;>
      rw [hi, hj]
    · exact .none
    · have hprelude := Effect.same_prelude (s := ⟨w, f, stack⟩) (t := ⟨u, f, stack⟩)
        ⟨hworld, rfl, rfl⟩ hij
      dsimp only
      generalize Effect.prelude i ⟨w, f, stack⟩ = r at hprelude ⊢
      generalize Effect.prelude j ⟨u, f, stack⟩ = r' at hprelude ⊢
      cases hprelude with
      | error state => exact .none
      | ok value state =>
        rename_i values values' s t
        cases value
        cases values with
        | none => exact .some ⟨⟨_, hij⟩, state⟩
        | some values => exact .none
  | call function args => exact .none
  | give values => exact .none
  | fail failure => exact .none

/-- Runs come apart where only one of them looks at a breakpoint. -/
theorem apart_of_looks (h : m.PatchOf id n) (hm : m.looks id = true) (hn : n.looks id = false) :
    m.Apart n := by
  unfold looks at hm hn
  rcases rel_cases (executing?_patch h) with
    ⟨hi, -⟩ | ⟨⟨i, s⟩, ⟨j, t⟩, hi, hj, ⟨allowed, hij⟩, hst⟩
  · simp [hi] at hm
  · rw [hi] at hm
    rw [hj] at hn
    simp only [Option.any_some] at hm hn
    rw [← Effect.looks_patch hij] at hn
    rcases Effect.execute_differ i.operation hst hm hn with
      ⟨f, hraises, hnot⟩ | ⟨hop, hkeeps, hoffers⟩
    · rw [Effect.execute_patch hij] at hnot
      exact .fault hi hj hraises hnot
    · exact .offer hi hj hop (hij.operation ▸ hop) hkeeps ((Effect.offers_patch hij).1 hoffers)

end Machine

end ScriptMachine
