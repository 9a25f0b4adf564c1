import ScriptMachine.Proofs.Flow.Versions
import ScriptMachine.Proofs.Machine.Outcomes

/-!
# Where instructions lead

The table of operations says which instructions have an auxiliary word, and each operation moves the
position of its frame by itself.  Both agree: where a frame goes on after an instruction is what the
instruction says, behind its words or at the target of a jump, but for the captures of a closure and
for a call that the host has taken over, which are passed over.
-/

namespace ScriptMachine

/-! ## Ways through code -/

/-- The distances of the jumps that an instruction may make, counted from behind its word. -/
def Instruction.distances (i : Instruction) : List Int :=
  match i.underlying with
  | .loadBoolean => [i.operands.c]
  | .jump | .jumpBack | .jumpIf | .jumpIfNot | .jumpIfEqual | .jumpIfLessEqual | .jumpIfLess
  | .jumpIfNotEqual | .jumpIfNotLessEqual | .jumpIfNotLess | .jumpIfNil | .jumpIfBoolean
  | .jumpIfNumber | .jumpIfString | .numericPrep | .numericLoop | .genericPrep
  | .genericPrepIndexed | .genericPrepNext | .genericLoop => [i.operands.d]
  | .jumpExtended => [i.operands.e]
  | _ => []

/-- The slots from one on hold captures. -/
def Prototype.CapturesAt (p : Prototype) (first count : Nat) : Prop :=
  ∀ k < count, ∃ j, p.code[first + k]? = some (.instruction j) ∧ j.underlying = .capture

/-- The slots at which a frame may go on after an instruction, `behind` being the slot behind its
word. -/
inductive Prototype.Leads (p : Prototype) (i : Instruction) (behind : Nat) : Nat → Prop where
  /-- Behind an instruction of one word. -/
  | on (one : i.underlying.info.hasAux = false) : Leads p i behind behind
  /-- Behind an instruction of two words. -/
  | past (two : i.underlying.info.hasAux = true) : Leads p i behind (Frame.displace behind 1)
  /-- Where the instruction jumps. -/
  | jumps {distance : Int} (h : distance ∈ i.distances) :
    Leads p i behind (Frame.displace behind distance)
  /-- Behind the captures of a closure. -/
  | captured {count : Nat} (makes : i.underlying = .newClosure ∨ i.underlying = .dupClosure)
    (captures : p.CapturesAt behind count) : Leads p i behind (behind + count)
  /-- Behind the call that follows a method look-up. -/
  | spliced {j : Instruction} (looks : i.underlying = .namecall)
    (call : p.code[Frame.displace behind 1]? = some (.instruction j))
    (calls : j.underlying = .call) : Leads p i behind (Frame.displace behind 1 + 1)

/-- The slots at which a waiting frame may go on that stands at a slot. -/
def Continuation.resumes (pc : Nat) : Continuation → List Nat
  | .results _ _ => [pc]
  | .iteration _ _ distance => [Frame.displace pc 1, Frame.displace pc distance]

/-- The slots at which a frame may go on that stands at a slot after an instruction. -/
def Outcome.resumes (pc : Nat) : Outcome → List Nat
  | .next => [pc]
  | .leave _ => []
  | .call _ _ continuation => continuation.resumes pc

/-! ## Places -/

/-- A slot at which a frame may go on. -/
structure Place where
  /-- The machine of the frame. -/
  vm : VmId
  /-- The prototype of the frame. -/
  prototype : Nat
  /-- The slot. -/
  slot : Nat

/-- A slot of the code that a frame runs. -/
def Frame.placeAt (f : Frame) (slot : Nat) : Place := ⟨f.vm, f.prototype, slot⟩

/-- The slots at which the waiting frames may go on. -/
def Stack.places (stack : Stack) : List Place :=
  stack.flatMap fun
    | .frame f next => (next.resumes f.pc).map f.placeAt
    | .native _ => []

/-- Storing in a register of a waiting frame does not move it. -/
theorem Stack.places_putRegister (stack : Stack) (id : FrameId) (slot : Nat) (value : Value) :
    (stack.putRegister id slot value).places = stack.places := by
  unfold putRegister places
  rw [List.flatMap_map]
  refine List.flatMap_congr fun waiting _ => ?_
  cases waiting with
  | frame f next =>
    by_cases hf : f.id = id
    · simp only [if_pos hf]
      rfl
    · simp only [if_neg hf]
  | native resume => rfl

namespace Running

variable {s t u : Running} {n : Module}

/-- The frame runs the same code, and those that wait may go on at the same places. -/
structure SameCode (s t : Running) : Prop where
  /-- The machine is the same. -/
  vm : t.frame.vm = s.frame.vm
  /-- The prototype is the same. -/
  prototype : t.frame.prototype = s.frame.prototype
  /-- The waiting frames stand where they stood. -/
  places : t.stack.places = s.stack.places
  /-- The world has evolved. -/
  evolves : s.world.Evolves t.world

/-- The frame has not moved either. -/
structure Stays (s t : Running) : Prop extends SameCode s t where
  /-- The position is the same. -/
  pc : t.frame.pc = s.frame.pc

theorem SameCode.trans (h : s.SameCode t) (h' : t.SameCode u) : s.SameCode u :=
  ⟨h'.vm.trans h.vm, h'.prototype.trans h.prototype, h'.places.trans h.places,
    h.evolves.trans h'.evolves⟩

/-- No basic effect leads into other code. -/
theorem steady_sameCode : Effect.Steady SameCode where
  refl s := ⟨rfl, rfl, rfl, .refl _⟩
  trans h h' := h.trans h'
  fault s f := ⟨rfl, rfl, rfl, .refl _⟩
  frame s f hf _ := ⟨hf.vm, hf.prototype, rfl, .refl _⟩
  moved s pc := ⟨rfl, rfl, rfl, .refl _⟩
  setIterator s slot bridge := ⟨rfl, rfl, rfl, .refl _⟩
  dropIterator s slot := ⟨rfl, rfl, rfl, .refl _⟩
  heap s heap := ⟨rfl, rfl, rfl, Effect.steady_evolves.heap s heap⟩
  perform s p h := ⟨rfl, rfl, rfl, Effect.steady_evolves.perform s p h⟩
  countHit s := ⟨rfl, rfl, rfl, Effect.steady_evolves.countHit s⟩
  confusion s := ⟨rfl, rfl, rfl, .refl _⟩
  trace s line := ⟨rfl, rfl, rfl, Effect.steady_evolves.trace s line⟩
  writeCell id value s := by
    unfold Effect.after Effect.writeCell
    split
    · exact ⟨rfl, rfl, rfl, .of_same rfl rfl⟩
    · split
      · exact ⟨rfl, rfl, rfl, .refl _⟩
      · exact ⟨rfl, rfl, s.stack.places_putRegister _ _ _, .refl _⟩
  closedCell value s := ⟨rfl, rfl, rfl, Effect.steady_evolves.closedCell value s⟩
  captureRegister slot s := ⟨rfl, rfl, rfl, Effect.steady_evolves.captureRegister slot s⟩
  closeFrom slot s := ⟨rfl, rfl, rfl, Effect.steady_evolves.closeFrom slot s⟩
  createClosure index upvalues s :=
    ⟨rfl, rfl, rfl, Effect.steady_evolves.createClosure index upvalues s⟩

/-- The basic effects on traversals leave the frame where it is. -/
theorem looping_stays : Effect.Looping Stays where
  setIterator s slot bridge := ⟨steady_sameCode.setIterator s slot bridge, rfl⟩
  dropIterator s slot := ⟨steady_sameCode.dropIterator s slot, rfl⟩

/-- So do the other ones that are no moves. -/
theorem calm_stays : Effect.Calm Stays where
  refl s := ⟨steady_sameCode.refl s, rfl⟩
  trans h h' := ⟨h.toSameCode.trans h'.toSameCode, h'.pc.trans h.pc⟩
  fault s f := ⟨steady_sameCode.fault s f, rfl⟩
  frame s f hf hpc := ⟨steady_sameCode.frame s f hf hpc, hpc⟩
  heap s heap := ⟨steady_sameCode.heap s heap, rfl⟩
  perform s p h := ⟨steady_sameCode.perform s p h, rfl⟩
  trace s line := ⟨steady_sameCode.trace s line, rfl⟩
  writeCell id value s := by
    refine ⟨steady_sameCode.writeCell id value s, ?_⟩
    unfold Effect.after Effect.writeCell
    split
    · rfl
    · split <;> rfl
  closedCell value s := ⟨steady_sameCode.closedCell value s, rfl⟩
  captureRegister slot s := ⟨steady_sameCode.captureRegister slot s, rfl⟩
  closeFrom slot s := ⟨steady_sameCode.closeFrom slot s, rfl⟩

/-- A closure that is made leaves the frame where it is. -/
theorem making_stays : Effect.Making Stays where
  createClosure index upvalues s := ⟨steady_sameCode.createClosure index upvalues s, rfl⟩

theorem stays_countHit : Effect.Keeps Stays Effect.countHit :=
  fun s => ⟨steady_sameCode.countHit s, rfl⟩

/-- Whatever a program of the host does, the frame stays where it is. -/
theorem stays_perform {α : Type} (p : HookProgram α) : Effect.Keeps Stays (Effect.perform p) := by
  intro s
  rw [Effect.after_perform]
  exact ⟨⟨rfl, rfl, rfl, p.perform_evolves s.world⟩, rfl⟩

/-- The machine of the frame runs a version of a module. -/
abbrev Runs (s : Running) (n : Module) : Prop := s.world.Runs s.frame.vm n

/-- The code that the module has for the frame. -/
abbrev codeIn (s : Running) (n : Module) : Prototype := n.prototype s.frame.prototype

theorem SameCode.runs (h : s.SameCode t) (hs : s.Runs n) : t.Runs n := by
  unfold Runs
  rw [h.vm]
  exact h.evolves.runs hs

theorem SameCode.codeIn (h : s.SameCode t) : t.codeIn n = s.codeIn n := by
  unfold Running.codeIn
  rw [h.prototype]

/-- What runs is a version of that code. -/
theorem Runs.prototype (h : s.Runs n) : s.prototype.VersionOf (s.codeIn n) := by
  obtain ⟨vm, hvm, hversion⟩ := h
  have hsame : s.vm = vm := by
    unfold World.vm? at hvm
    unfold Running.vm
    rw [Array.getD_eq_getD_getElem?, hvm, Option.getD_some]
  unfold Running.prototype
  rw [hsame]
  exact hversion.prototype s.frame.prototype

/-- An operation that runs at a slot, and is no breakpoint, is that of an instruction of the
module. -/
theorem Runs.instruction (h : s.Runs n) {slot : Nat} {i : Instruction} {op : Opcode}
    (hi : s.prototype.code[slot]?.map Slot.asInstruction = some i) (hop : i.opcode = op)
    (hnop : op ≠ .nop) (hbreakpoint : op ≠ .breakpoint) :
    ∃ j, (s.codeIn n).code[slot]? = some (.instruction j) ∧ j.underlying = op := by
  rcases rel_cases (h.prototype slot) with ⟨hs, hn⟩ | ⟨x, y, hs, hn, hxy⟩
  · rw [hs] at hi
    cases hi
  · rw [hs] at hi
    cases hi
    cases hxy with
    | instruction hij => exact ⟨_, hn, hij.underlying_of_opcode hop hbreakpoint⟩
    | aux word => exact absurd hop.symm hnop

end Running

/-! ## Effects that lead on -/

/-- The operations that leave the position alone have no auxiliary word. -/
theorem Opcode.hasAux_of_stays {op : Opcode} (h : op.motion = .stays) : op.info.hasAux = false := by
  cases op <;> first | rfl | cases h

/-- The operations that pass over an auxiliary word have one. -/
theorem Opcode.hasAux_of_passes {op : Opcode} (h : op.motion = .passes) :
    op.info.hasAux = true := by
  cases op <;> first | rfl | cases h

namespace Effect

variable {α β : Type} {n : Module} {i : Instruction} {s : Running}

/-- Whenever the effect ends well, `P` says of the code and the position how it moves: which result
it has, and at which slot the frame stands then. -/
def Goes (n : Module) (P : Prototype → Nat → α → Nat → Prop) (x : Effect α) : Prop :=
  ∀ s : Running, s.Runs n → x.Ends s fun a t => P (s.codeIn n) s.frame.pc a t.frame.pc

/-- Whenever the effect ends well, the frame stands at a slot to which an instruction leads. -/
abbrev LeadsBy (n : Module) (i : Instruction) (x : Effect α) : Prop :=
  Goes n (fun p pc _ pc' => p.Leads i pc pc') x

section Goes

variable {P : Prototype → Nat → β → Nat → Prop}

theorem Goes.after {x : Effect α} {f : α → Effect β} (hx : Keeps Running.Stays x)
    (hf : ∀ a, Goes n P (f a)) : Goes n P (x >>= f) := by
  intro s hs
  refine (hx.ends s).bind fun a t hst => ?_
  have hgoes := hf a t (hst.runs hs)
  rwa [hst.codeIn, hst.pc] at hgoes

/-- One effect after the other: where the second one begins, the first one has ended. -/
theorem Goes.bind {Q : Prototype → Nat → α → Nat → Prop} {Q' : α → Prototype → Nat → β → Nat → Prop}
    {x : Effect α} {f : α → Effect β} (hcode : Keeps Running.SameCode x) (hx : Goes n Q x)
    (hf : ∀ a, Goes n (Q' a) (f a))
    (h : ∀ {p pc a pc' b pc''}, Q p pc a pc' → Q' a p pc' b pc'' → P p pc b pc'') :
    Goes n P (x >>= f) := by
  intro s hs b u hu
  obtain ⟨a, t, ht, hrest⟩ := ok_of_bind hu
  have hst := hcode.ends s a t ht
  have hsecond := hf a t (hst.runs hs) b u hrest
  rw [hst.codeIn] at hsecond
  exact h (hx s hs a t ht) hsecond

theorem Goes.ite {c : Prop} [Decidable c] {x y : Effect β} (hx : Goes n P x) (hy : Goes n P y) :
    Goes n P (if c then x else y) :=
  fun s hs => .ite (fun _ => hx s hs) fun _ => hy s hs

theorem goes_fault (f : Fault) : Goes n P (fault f) := fun _ _ => ends_fault

theorem goes_pure {b : β} (h : ∀ p pc, P p pc b pc) : Goes n P (pure b) :=
  fun _ _ => ends_pure (h _ _)

theorem goes_stays {x : Effect β} (hx : Keeps Running.Stays x) (h : ∀ p pc b, P p pc b pc) :
    Goes n P x :=
  fun s _ => (hx.ends s).mono fun _ _ hst => hst.pc ▸ h _ _ _

end Goes

theorem leads_on {x : Effect α} (h : i.underlying.info.hasAux = false)
    (hx : Keeps Running.Stays x) : LeadsBy n i x := goes_stays hx fun _ _ _ => .on h

theorem leads_past (h : i.underlying.info.hasAux = true) : LeadsBy n i (jump 1) :=
  fun _ _ _ _ ht => by cases ht; exact .past h

theorem leads_jump {distance : Int} (h : distance ∈ i.distances) :
    LeadsBy n i (jump distance) :=
  fun _ _ _ _ ht => by cases ht; exact .jumps h

/-! ## Tests and loops -/

section Jumps

variable (hjump : i.operands.d ∈ i.distances)

include hjump

theorem leads_branch (haux : i.underlying.info.hasAux = true) (condition : Bool) :
    LeadsBy n i (branch i condition) := by
  cases condition with
  | false => exact leads_past haux
  | true => exact leads_jump hjump

theorem leads_compare (haux : i.underlying.info.hasAux = true) (expected : Bool)
    (test : Value → Value → Except Fault Bool) : LeadsBy n i (compare i expected test) := by
  have hcalm := Running.calm_stays
  refine .after (keeps_get hcalm) fun s => ?_
  have htest : LeadsBy n i (do
      let outcome ← ofExcept (test (← register i.operands.a) (← register i.aux.toNat))
      branch i (outcome == expected)) := by
    refine .after (keeps_register hcalm _) fun x => .after (keeps_register hcalm _) fun y => ?_
    exact .after (keeps_ofExcept hcalm _) fun outcome => leads_branch hjump haux _
  exact .ite (.after (keeps_fault hcalm _) fun _ => htest) htest

theorem leads_compareConstant (haux : i.underlying.info.hasAux = true) (test : Value → Bool) :
    LeadsBy n i (compareConstant i test) :=
  .after (keeps_register Running.calm_stays _) fun _ => leads_branch hjump haux _

theorem leads_unless (hone : i.underlying.info.hasAux = false) (c : Prop) [Decidable c] :
    LeadsBy n i (if c then jump i.operands.d else pure ()) :=
  .ite (leads_jump hjump) (leads_on hone (keeps_pure Running.calm_stays _))

theorem leads_numericPrep (hone : i.underlying.info.hasAux = false) :
    LeadsBy n i (numericPrep i) := by
  have hcalm := Running.calm_stays
  refine .after (keeps_loopNumber hcalm _ _) fun limit => ?_
  refine .after (keeps_loopNumber hcalm _ _) fun step => ?_
  refine .after (keeps_loopNumber hcalm _ _) fun index => ?_
  refine .after (keeps_put hcalm _ _) fun _ => .after (keeps_put hcalm _ _) fun _ => ?_
  exact .after (keeps_put hcalm _ _) fun _ => leads_unless hjump hone _

theorem leads_numericLoop (hone : i.underlying.info.hasAux = false) :
    LeadsBy n i (numericLoop i) := by
  have hcalm := Running.calm_stays
  refine .after (keeps_interrupt hcalm _) fun _ => ?_
  refine .after (keeps_numberIn hcalm hcalm.refl _) fun limit => ?_
  refine .after (keeps_numberIn hcalm hcalm.refl _) fun step => ?_
  refine .after (keeps_numberIn hcalm hcalm.refl _) fun index => ?_
  exact .after (keeps_put hcalm _ _) fun _ => leads_unless hjump hone _

theorem leads_functionPrep : LeadsBy n i (functionPrep i) :=
  .after (keeps_register Running.calm_stays _) fun _ => .ite (leads_jump hjump) (goes_fault _)

theorem leads_genericPrep : LeadsBy n i (genericPrep i) := by
  have hcalm := Running.calm_stays
  refine .after (keeps_register hcalm _) fun iterated => ?_
  refine .after (keeps_settings hcalm) fun settings => ?_
  refine .ite ?traversal (leads_jump hjump)
  refine .after (keeps_prototype hcalm) fun p => ?_
  refine .after (keeps_get hcalm) fun s => ?_
  dsimp only
  split
  · refine .ite ?_ (.after (keeps_fault hcalm _) fun _ => leads_jump hjump)
    refine .after (keeps_loopArity hcalm hcalm.refl _) fun arity => ?_
    refine .after (keeps_ofExcept hcalm _) fun bridge => ?_
    exact .after (fun s => Running.looping_stays.setIterator s _ _) fun _ => leads_jump hjump
  · exact .after (keeps_fault hcalm _) fun _ => leads_jump hjump

end Jumps

/-! ## Captures -/

theorem goes_nextCapture? : Goes n (fun p pc i? pc' => ∀ i, i? = some i →
    pc' = pc + 1 ∧ p.CapturesAt pc 1) nextCapture? := by
  rintro s hs i? t ht i rfl
  unfold nextCapture? at ht
  simp only [prototype_bind, get_bind] at ht
  cases hslot : s.prototype.code[s.frame.pc]?.map Slot.asInstruction with
  | none =>
    simp only [hslot] at ht
    cases ht
  | some j =>
    simp only [hslot] at ht
    split at ht
    · rename_i hcapture
      cases ht
      refine ⟨rfl, fun k hk => ?_⟩
      obtain rfl : k = 0 := by omega
      exact hs.instruction hslot hcapture (by decide) (by decide)
    · cases ht

/-- The captures of a closure are passed over. -/
theorem goes_captures (child : Prototype) (shares : Bool) (left : Nat) :
    Goes n (fun p pc _ pc' => ∃ count, pc' = pc + count ∧ p.CapturesAt pc count)
      (captures child shares left) := by
  have hcalm := Running.calm_stays
  induction left with
  | zero =>
    exact goes_pure fun _ _ => ⟨0, rfl, fun k hk => absurd hk k.not_lt_zero⟩
  | succ left ih =>
    refine .bind (keeps_nextCapture? Running.steady_sameCode.toMoving) goes_nextCapture?
      (show ∀ i?, Goes n (fun p pc _ pc' => ∃ i, i? = some i ∧
        ∃ count, pc' = pc + count ∧ p.CapturesAt pc count) _ from fun i? => ?_) ?_
    · cases i? with
      | none => exact goes_fault _
      | some i =>
        refine .after (keeps_captureOf hcalm i shares) fun first => ?_
        refine .bind (keeps_captures Running.steady_sameCode.toMoving _ _ _) ih
          (show ∀ others, Goes n (fun _ pc _ pc' => pc' = pc) _ from
            fun others => goes_pure fun _ _ => rfl) ?_
        rintro p pc others pc' cells pc'' hcaptures rfl
        exact ⟨i, rfl, hcaptures⟩
    · rintro p pc i? pc' cells pc'' hnext ⟨i, rfl, count, rfl, hothers⟩
      obtain ⟨rfl, hfirst⟩ := hnext i rfl
      refine ⟨count + 1, by omega, fun k hk => ?_⟩
      cases k with
      | zero => exact hfirst 0 (by omega)
      | succ k =>
        rw [show pc + (k + 1) = pc + 1 + k by omega]
        exact hothers k (by omega)

theorem leads_makeClosure (h : i.underlying = .newClosure ∨ i.underlying = .dupClosure)
    (target index : Nat) (shares : Bool) : LeadsBy n i (makeClosure target index shares) := by
  have hcalm := Running.calm_stays
  refine .after (keeps_vm hcalm) fun vm => ?_
  have hstore : ∀ cells : List CellId, Goes n (fun _ pc _ pc' => pc' = pc) (do
      put target (.function (← createClosure index cells.toArray))) := fun cells =>
    goes_stays (Upholds.bind hcalm (Running.making_stays.createClosure _ _) fun f =>
      keeps_put hcalm _ _) fun _ _ _ => rfl
  refine .bind (keeps_captures Running.steady_sameCode.toMoving _ _ _) (goes_captures _ _ _) hstore
    ?_
  rintro p pc cells pc' _ pc'' ⟨count, rfl, hcaptures⟩ rfl
  exact .captured h hcaptures

theorem leads_newClosure (h : i.underlying = .newClosure) : LeadsBy n i (newClosure i) := by
  refine .after (keeps_prototype Running.calm_stays) fun p => ?_
  rcases i.operands.d with k | k
  · dsimp only
    cases p.children[k]? with
    | some index => exact leads_makeClosure (.inl h) _ _ _
    | none => exact goes_fault _
  · exact goes_fault _

theorem leads_dupClosure (h : i.underlying = .dupClosure) : LeadsBy n i (dupClosure i) := by
  unfold dupClosure
  split
  · refine .after (keeps_vm Running.calm_stays) fun vm => ?_
    exact .ite (leads_makeClosure (.inr h) _ _ _) (goes_fault _)
  · exact goes_fault _

/-! ## Method calls -/

theorem goes_offeredCall? : Goes n (fun p pc i? pc' => pc' = pc ∧ ∀ i, i? = some i →
    ∃ j, p.code[pc]? = some (.instruction j) ∧ j.underlying = .call) offeredCall? := by
  intro s hs i? t ht
  refine ⟨((keeps_offeredCall? Running.calm_stays).ends s _ _ ht).pc, ?_⟩
  rintro i rfl
  unfold offeredCall? at ht
  simp only [settings_bind] at ht
  split at ht
  · cases ht
  · simp only [prototype_bind, get_bind] at ht
    cases hslot : s.prototype.code[s.frame.pc]?.map Slot.asInstruction with
    | none =>
      simp only [hslot] at ht
      cases ht
    | some j =>
      simp only [hslot] at ht
      split at ht
      · rename_i hcall
        exact hs.instruction hslot hcall (by decide) (by decide)
      · cases ht

/-- A call that the host takes over is passed over, and else the frame stays where it is. -/
theorem goes_offerNamecall (method : Value) : Goes n (fun p pc taken pc' =>
    if taken then pc' = pc + 1 ∧ ∃ j, p.code[pc]? = some (.instruction j) ∧ j.underlying = .call
    else pc' = pc) (offerNamecall method) := by
  have hcalm := Running.calm_stays
  have hsteady := Running.steady_sameCode
  refine .after (keeps_settings hcalm) fun settings => ?_
  refine .bind (keeps_offeredCall? hsteady.toCalm) goes_offeredCall?
    (show ∀ offered : Option Instruction, Goes n (fun _ pc taken pc' =>
      if taken then pc' = pc + 1 ∧ offered.isSome else pc' = pc) _ from fun offered => ?_) ?_
  · cases settings.namecallHandler with
    | none => exact goes_pure fun _ _ => rfl
    | some handler =>
      cases offered with
      | none => exact goes_pure fun _ _ => rfl
      | some callInst =>
        have hstore : ∀ results : List Value, Goes n (fun _ pc taken pc' =>
            if taken then pc' = pc + 1 ∧ (some callInst).isSome else pc' = pc) (do
              modifyFrame fun f => { f with current := f.pc, pc := f.pc + 1 }
              storeResults callInst.operands.a callInst.operands.c results
              return true) := by
          intro results s hs taken t ht
          simp only [modifyFrame_bind] at ht
          obtain ⟨_, u, hu, hlast⟩ := ok_of_bind ht
          cases hlast
          exact ⟨((keeps_storeResults hcalm _ _ _).ends _ _ _ hu).pc, rfl⟩
        refine .ite (.after (keeps_callHooks hcalm) fun _ => ?_) ?_
        all_goals
          refine .after (keeps_countFrom hcalm _ _) fun count => ?_
          refine .after (keeps_values hcalm _ _) fun args => ?_
          refine .after (Running.stays_perform _) fun answer => ?_
          cases answer with
          | none => exact goes_pure fun _ _ => rfl
          | some results =>
            exact .ite (.after (keeps_callHooks hcalm) fun _ => hstore results) (hstore results)
  · rintro p pc offered pc' taken pc'' ⟨rfl, hcall⟩ htaken
    cases taken with
    | false => exact htaken
    | true =>
      obtain ⟨hpc, hsome⟩ := htaken
      obtain ⟨i, rfl⟩ := Option.isSome_iff_exists.1 hsome
      exact ⟨hpc, hcall i rfl⟩

theorem goes_jump (distance : Int) :
    Goes n (fun _ pc _ pc' => pc' = Frame.displace pc distance) (jump distance) := by
  intro s hs _ t ht
  cases ht
  rfl

theorem leads_namecall (h : i.underlying = .namecall) : LeadsBy n i (namecall i) := by
  have hcalm := Running.calm_stays
  have hsteady := Running.steady_sameCode
  refine .after (keeps_register hcalm _) fun object => ?_
  refine .after (keeps_put hcalm _ _) fun _ => ?_
  refine .bind (keeps_jump hsteady.toMoving _) (goes_jump 1)
    (show ∀ _ : Unit, Goes n (fun p pc _ pc' => pc' = pc ∨ pc' = pc + 1 ∧
      ∃ j, p.code[pc]? = some (.instruction j) ∧ j.underlying = .call) _ from fun _ => ?_) ?_
  · refine .bind (keeps_offerNamecall hsteady.toMoving _) (goes_offerNamecall _)
      (show ∀ taken, Goes n (fun _ pc _ pc' => pc' = pc) _ from fun taken => ?_) ?_
    · refine goes_stays (.ite ?_ (keeps_pure hcalm _)) fun _ _ _ => rfl
      exact (keeps_getField hcalm _ _).bind hcalm fun value => keeps_put hcalm _ _
    · rintro p pc taken pc' _ pc'' htaken rfl
      cases taken with
      | false => exact .inl htaken
      | true => exact .inr htaken
  · rintro p pc _ pc' _ pc'' rfl (rfl | ⟨rfl, j, hcall, hj⟩)
    · exact .past (by rw [h]; rfl)
    · exact .spliced h hcall hj

/-! ## All operations -/

/-- Where the operations lead that do nothing but to go on. -/
theorem leads_executePlain (h : i.underlying ≠ .genericLoop) :
    LeadsBy n i (executePlain i.underlying i) := by
  have hcalm := Running.calm_stays
  cases hmotion : i.underlying.motion with
  | stays =>
    exact leads_on (Opcode.hasAux_of_stays hmotion) 
      (keeps_executePlain_of_stays hcalm hmotion (fun _ => Running.stays_countHit) i)
  | passes =>
    rw [executePlain_of_passes hmotion]
    exact .after (keeps_passing hcalm _ i) fun _ => leads_past (Opcode.hasAux_of_passes hmotion)
  | leads =>
    cases hop : i.underlying with
    | loadBoolean =>
      refine .after (keeps_put hcalm _ _) fun _ => leads_jump ?_
      simp [Instruction.distances, hop]
    | newClosure => exact leads_newClosure hop
    | dupClosure => exact leads_dupClosure hop
    | namecall => exact leads_namecall hop
    | jump => exact leads_jump (by simp [Instruction.distances, hop])
    | jumpBack | jumpExtended =>
      refine .after (keeps_interrupt hcalm _) fun _ => leads_jump ?_
      simp [Instruction.distances, hop]
    | jumpIf | jumpIfNot =>
      refine .after (keeps_register hcalm _) fun value => ?_
      exact leads_unless (by simp [Instruction.distances, hop]) (by rw [hop]; rfl) _
    | jumpIfEqual | jumpIfLessEqual | jumpIfLess | jumpIfNotEqual | jumpIfNotLessEqual
    | jumpIfNotLess =>
      exact leads_compare (by simp [Instruction.distances, hop]) (by rw [hop]; rfl) _ _
    | jumpIfNil | jumpIfBoolean | jumpIfNumber | jumpIfString =>
      exact leads_compareConstant (by simp [Instruction.distances, hop]) (by rw [hop]; rfl) _
    | numericPrep =>
      exact leads_numericPrep (by simp [Instruction.distances, hop]) (by rw [hop]; rfl)
    | numericLoop =>
      exact leads_numericLoop (by simp [Instruction.distances, hop]) (by rw [hop]; rfl)
    | genericPrep => exact leads_genericPrep (by simp [Instruction.distances, hop])
    | genericPrepIndexed | genericPrepNext =>
      exact leads_functionPrep (by simp [Instruction.distances, hop])
    | genericLoop => exact absurd hop h
    | _ => rw [hop] at hmotion; cases hmotion

/-- Whenever the effect ends well, the slots at which the frame may go on are such to which an
instruction leads. -/
abbrev ResumesBy (n : Module) (i : Instruction) (x : Effect Outcome) : Prop :=
  Goes n (fun p pc outcome pc' => ∀ slot ∈ outcome.resumes pc', p.Leads i pc slot) x

theorem resumes_next {x : Effect Unit} (hx : LeadsBy n i x) :
    ResumesBy n i (do x; return .next) := by
  intro s hs outcome t ht
  obtain ⟨_, u, hu, hlast⟩ := ok_of_bind ht
  cases hlast
  exact List.forall_mem_singleton.2 (hx s hs _ _ hu)

theorem resumes_leave (values : List Value) : ResumesBy n i (pure (.leave values)) :=
  goes_pure fun _ _ _ hslot => absurd hslot List.not_mem_nil

theorem resumes_call (h : i.underlying = .call) : ResumesBy n i (call i) := by
  have hcalm := Running.calm_stays
  refine .after (keeps_interrupt hcalm _) fun _ =>
    .after (keeps_countFrom hcalm _ _) fun count => ?_
  refine .after (keeps_values hcalm _ _) fun args =>
    .after (keeps_register hcalm _) fun callee => ?_
  refine goes_pure fun p pc => List.forall_mem_singleton.2 (.on ?_)
  rw [h]
  rfl

theorem resumes_ret (i : Instruction) : ResumesBy n i (ret i) := by
  have hcalm := Running.calm_stays
  refine .after (keeps_interrupt hcalm _) fun _ =>
    .after (keeps_countFrom hcalm _ _) fun count => ?_
  exact .ite (resumes_leave _) (.after (keeps_values hcalm _ _) fun values => resumes_leave _)

theorem resumes_genericLoop (h : i.underlying = .genericLoop) : ResumesBy n i (genericLoop i) := by
  have hcalm := Running.calm_stays
  have hpast : i.underlying.info.hasAux = true := by
    rw [h]
    rfl
  have hback : i.operands.d ∈ i.distances := by simp [Instruction.distances, h]
  refine .after (keeps_interrupt hcalm _) fun _ => ?_
  refine .after (keeps_loopArity hcalm hcalm.refl _) fun arity => ?_
  refine .after (keeps_ensure hcalm _) fun _ => ?_
  refine .after (keeps_modifyFrame hcalm (fun f => f.sameCall_moved _ _ _) fun _ => rfl) fun _ => ?_
  refine .after (keeps_register hcalm _) fun iterated => .after (keeps_settings hcalm) fun _ => ?_
  refine .ite ?call
    (.after (keeps_stepIterator hcalm Running.looping_stays _) fun round => ?traversal)
  case call =>
    refine .after (keeps_register hcalm _) fun state =>
      .after (keeps_register hcalm _) fun control => ?_
    refine goes_pure fun p pc slot hslot => ?_
    rcases List.mem_pair.1 hslot with rfl | rfl
    · exact .past hpast
    · exact .jumps hback
  case traversal =>
    cases round with
    | none =>
      exact .after (fun s => Running.looping_stays.dropIterator s _) fun _ =>
        resumes_next (leads_past hpast)
    | some round =>
      refine .after (keeps_modifyFrame hcalm (fun f => f.sameCall_putAll _ _) fun f =>
        f.pc_putAll) fun _ => ?_
      refine .after (keeps_register hcalm _) fun control => .after (keeps_put hcalm _ _) fun _ => ?_
      exact resumes_next (leads_jump hback)

theorem resumes_execute (i : Instruction) : ResumesBy n i (execute i.underlying i) := by
  unfold execute
  split
  · exact resumes_call ‹_›
  · exact resumes_ret i
  · exact resumes_genericLoop ‹_›
  · rename_i hloop
    exact resumes_next (leads_executePlain hloop)

/-- Wherever a frame goes on after an instruction, the instruction leads there. -/
theorem ends_dispatch (hs : s.Runs n) (hi : i.operation = i.underlying) :
    (dispatch i).Ends s fun outcome t =>
      ∀ slot ∈ outcome.resumes t.frame.pc, (s.codeIn n).Leads i (s.frame.pc + 1) slot := by
  rw [dispatch_eq]
  refine (ends_prelude i).bind fun early t haside => ?_
  have hframe : t.frame = s.advanced.frame := haside.frame
  cases early with
  | some values => exact ends_pure fun slot hslot => absurd hslot List.not_mem_nil
  | none =>
    have hruns : t.Runs n := by
      unfold Running.Runs
      rw [hframe]
      exact haside.evolves.runs hs
    refine Ends.mono (P := fun outcome u => ∀ slot ∈ outcome.resumes u.frame.pc,
      (t.codeIn n).Leads i t.frame.pc slot) ?_ fun outcome u hleads => ?_
    · show (execute i.operation i).Ends t _
      rw [hi]
      exact resumes_execute i t hruns
    · unfold Running.codeIn at hleads
      rwa [hframe] at hleads

end Effect

/-- A frame that takes the results of a call goes on at a slot at which it was to go on. -/
theorem Machine.goes_accept (next : Continuation) (values : List Value) (s : Running) :
    (accept next values).Ends s fun outcome t =>
      ∀ slot ∈ outcome.resumes t.frame.pc, slot ∈ next.resumes s.frame.pc := by
  have hcalm := Running.calm_stays
  cases next with
  | results base wanted =>
    refine ((Effect.keeps_storeResults hcalm base wanted values).ends s).bind fun _ t hst => ?_
    refine Effect.ends_pure (List.forall_mem_singleton.2 ?_)
    rw [hst.pc]
    exact List.mem_singleton_self _
  | iteration base arity distance =>
    intro outcome t ht
    obtain ⟨_, u, hu, hlast⟩ := Effect.ok_of_bind ht
    cases hlast
    refine List.forall_mem_singleton.2 ?_
    unfold Effect.storeRound at hu
    simp only [Effect.modifyFrame_bind, Effect.register_bind] at hu
    split at hu
    · cases hu
      show Frame.displace (Frame.putAll _ _ _).pc 1 ∈ _
      rw [Frame.pc_putAll]
      exact List.mem_cons_self
    · cases hu
      show Frame.displace (Frame.putAll _ _ _).pc distance ∈ _
      rw [Frame.pc_putAll]
      exact List.mem_cons_of_mem _ List.mem_cons_self

end ScriptMachine
