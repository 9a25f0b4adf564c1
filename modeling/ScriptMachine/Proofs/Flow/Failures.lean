import ScriptMachine.Execution
import ScriptMachine.Proofs.Flow.Interrupts
import ScriptMachine.Proofs.Machine.Raising

/-!
# With which failures runs of loaded code end

Operations take some things to be of a kind without looking: that the count of a loop is a number,
that a constant is a truth value, and that the registers of a numeric loop hold numbers.  The loader
sees to the constants.  The registers nobody sees to, and there alone can a run of loaded code fail
in a way that scripts cannot handle.
-/

namespace ScriptMachine

/-! ## Loaded code -/

/-- Every machine runs a version of a module that has been loaded from bytes. -/
def World.AllLoaded (w : World) : Prop :=
  ∀ id vm, w.vm? id = some vm → ∃ (options : LoadOptions) (bytes : Bytes) (heap heap' : Heap)
    (n : Module), options.load bytes heap = .ok (n, heap') ∧ vm.module.VersionOf n

/-- What operations take for granted of an instruction is so. -/
structure Instruction.Vetted (i : Instruction) : Prop where
  /-- A breakpoint stands in for the operation that was loaded. -/
  operation : i.operation = i.underlying
  /-- The count of variables of a generic loop is a number. -/
  count : i.underlying = .genericLoop → ∃ n, i.constant = .number n
  /-- What is compared with a truth value is one. -/
  truth : i.underlying = .jumpIfBoolean → ∃ b, i.constant = .boolean b

/-- The loader gives operations the constants that they take for granted. -/
theorem Slot.VersionOf.vetted {s t : Slot} (h : s.VersionOf t) (constants : Array Constant)
    (ht : ∀ j, t = .instruction j → j.WellFormed constants) : s.asInstruction.Vetted := by
  refine ⟨h.operation, ?_, ?_⟩
  all_goals
    intro hop
    cases h with
    | aux word => cases hop
    | @instruction i j hij =>
      have hj := ht j rfl
      have hnamed := hj.constant
      have hopcode : j.opcode = i.underlying := by rw [hj.underlying, hij.underlying]
      have hconstant : i.constant = j.constant := by rw [hij.same]
      rw [Instruction.namedConstant?, hopcode, show i.underlying = _ from hop] at hnamed
      exact ⟨_, hconstant.trans (Option.some.inj hnamed).symm⟩

namespace World

variable {w w' : World}

/-- So it stays, as long as no machine is made. -/
theorem AllLoaded.step (hw : w.AllLoaded) (hevolves : w.Evolves w')
    (hsize : w'.vms.size = w.vms.size) : w'.AllLoaded := by
  intro id vm' hvm'
  have hlt : id.index < w.vms.size := hsize ▸ (Array.getElem?_eq_some_iff.1 hvm').1
  have hvm : w.vm? id = some w.vms[id.index] := Array.getElem?_eq_getElem hlt
  obtain ⟨options, bytes, heap, heap', n, hload, hversion⟩ := hw id _ hvm
  obtain ⟨vm'', hvm'', hchanged⟩ := hevolves.machine hvm
  rw [hvm''] at hvm'
  cases hvm'
  exact ⟨options, bytes, heap, heap', n, hload, hchanged.versionOf hversion⟩

/-- A world without machines. -/
theorem allLoaded_of_empty (h : w.vms = #[]) : w.AllLoaded := by
  intro id vm hvm
  simp [vm?, h] at hvm

/-- A machine that is loaded from bytes is one more. -/
theorem AllLoaded.loadBytes (hw : w.AllLoaded) {bytes : Bytes} {environment : Option TableId}
    {settings : Settings} {entry : Entry}
    (h : w.loadBytes bytes environment settings = .ok (entry, w')) : w'.AllLoaded := by
  obtain ⟨m, heap, hload, heq⟩ := createVm_of_loadBytes h
  cases heq
  intro id vm hvm
  have hpush : (w.vms.push { module := m, environment, settings })[id.index]? = some vm := hvm
  rw [Array.getElem?_push] at hpush
  split at hpush
  · cases hpush
    exact ⟨_, _, _, _, m, hload, .refl (LoadOptions.load_unpatched _ hload)⟩
  · exact hw id vm hpush

/-- An instruction of its machines is a version of one that the loader has made. -/
theorem AllLoaded.source (hw : w.AllLoaded) {index p slot : Nat} {i : Instruction}
    (hi : ((w.vms.getD index .empty).prototype p).code[slot]?.map Slot.asInstruction = some i) :
    ∃ (s t : Slot) (constants : Array Constant), s.asInstruction = i ∧ s.VersionOf t ∧
      ∀ j, t = .instruction j → j.WellFormed constants := by
  obtain ⟨s, hs, rfl⟩ := Option.map_eq_some_iff.1 hi
  cases hvm : w.vms[index]? with
  | none =>
    rw [Array.getD_eq_getD_getElem?, hvm] at hs
    cases hs
  | some vm =>
    rw [Array.getD_eq_getD_getElem?, hvm, Option.getD_some] at hs
    obtain ⟨options, bytes, heap, heap', n, hload, hversion⟩ := hw ⟨index⟩ vm hvm
    have hwell := (LoadOptions.loaded_of_load hload).wellFormed.prototypes
    rcases rel_cases (hversion.prototype p slot) with ⟨hnone, -⟩ | ⟨s', t, hs', ht, hst⟩
    · rw [show (vm.module.prototype p).code[slot]? = some s from hs] at hnone
      cases hnone
    · rw [show (vm.module.prototype p).code[slot]? = some s from hs] at hs'
      cases hs'
      refine ⟨s, t, (n.prototype p).constants, rfl, hst, fun j hj => ?_⟩
      subst hj
      exact (hwell _ (Module.mem_of_code ht)).instructions _ _ ht

/-- So all instructions of its machines have what operations take for granted. -/
theorem AllLoaded.vetted (hw : w.AllLoaded) {index p slot : Nat} {i : Instruction}
    (hi : ((w.vms.getD index .empty).prototype p).code[slot]?.map Slot.asInstruction = some i) :
    i.Vetted := by
  obtain ⟨s, t, constants, rfl, hst, hwell⟩ := hw.source hi
  exact hst.vetted constants hwell

/-- The base library raises only failures that scripts may handle. -/
theorem hostRaisesOnly_standard {base : World} {P : Failure → Prop} (hP : Failure.Covers P) :
    standard.2.HostRaisesOnly base P := by
  have hworld : HostRaisesOnly { heap := (({} : Heap).create .empty).2 } base P := by
    have hsame : SameHost {} { heap := (({} : Heap).create .empty).2 } := .of_same rfl rfl
    exact hsame.hostRaisesOnly hostRaisesOnly_default
  exact hworld.openLibrary hP _

end World

/-! ## Operations that look at kinds -/

namespace Effect

variable {base : World} {P : Failure → Prop} {V : Verdict} {s : Running}

/-- The registers of a numeric loop hold numbers. -/
structure NumericAt (f : Frame) (i : Instruction) : Prop where
  /-- The limit is one. -/
  limit : ∃ n, f.register i.operands.a = .number n
  /-- The increment is one. -/
  step : ∃ n, f.register (i.operands.a + 1) = .number n
  /-- The index is one. -/
  index : ∃ n, f.register (i.operands.a + 2) = .number n

/-- A register that holds a number is read as one. -/
theorem numberIn_bind {β : Type} {slot : Nat} {n : Float} (h : s.frame.register slot = .number n)
    (f : Float → Effect β) : (numberIn slot >>= f) s = f n s := by
  have hread : numberIn slot s = .ok n s := by
    unfold numberIn
    refine (bind_of_ok (rfl : register slot s = .ok _ s)).trans ?_
    rw [h]
    rfl
  exact bind_of_ok hread

/-- A numeric loop whose registers hold numbers does nothing but basic effects. -/
theorem upholdsAt_numericLoop (hV : Verdict.Moving V) {i : Instruction}
    (hs : NumericAt s.frame i) : UpholdsAt V s (numericLoop i) := by
  refine upholds_bind_at hV.toCalm (keeps_interrupt hV.toCalm _ s) fun _ t ht => ?_
  have hframe : t.frame = s.frame := ((aside_interrupt _).ends s _ _ ht).frame
  rw [← hframe] at hs
  obtain ⟨⟨limit, hlimit⟩, ⟨step, hstep⟩, ⟨index, hindex⟩⟩ := hs
  have hrest : Upholds V (do
      put (i.operands.a + 2) (.number (index + step))
      if loopContinues (index + step) limit step then jump i.operands.d) := by
    refine (keeps_put hV.toCalm _ _).bind hV.toCalm fun _ => ?_
    exact .ite (keeps_jump hV _) (keeps_pure hV.toCalm _)
  have hreads := hrest t
  unfold UpholdsAt failure? after at hreads ⊢
  dsimp only
  rwa [numberIn_bind hlimit, numberIn_bind hstep, numberIn_bind hindex]

/-- A count that is a number is known. -/
theorem upholds_loopArity (hV : Verdict.Calm V) {i : Instruction} {n : Float}
    (h : i.constant = .number n) : Upholds V (loopArity i) := by
  unfold loopArity
  rw [h]
  exact keeps_pure hV _

/-- An instruction of loaded code raises no other failures than the host, and confuses kinds of
values only if it is a numeric loop of whose registers one holds no number. -/
theorem raising_dispatch (hP : Failure.Covers P) (hloaded : s.world.AllLoaded) {i : Instruction}
    (hi : Machine.nextInstruction? s.world s.frame = some i)
    (hnumeric : i.operation = .numericLoop → ¬ NumericAt s.frame i → P .confusion) :
    UpholdsAt (Raising base P) s (dispatch i) := by
  have hV : Verdict.Moving (Raising base P) := moving_raising hP
  refine upholdsAt_dispatch hV fun t ht => ?_
  have haside : Aside s.advanced t := ends_prelude i _ _ ht
  have hvetted : i.Vetted := hloaded.vetted (Machine.code_of_next hi).2
  by_cases hnum : i.operation = .numericLoop
  · rw [hnum]
    have hloop : UpholdsAt (Raising base P) t (numericLoop i) := by
      by_cases hnumbers : NumericAt s.frame i
      · refine upholdsAt_numericLoop hV ?_
        rw [haside.frame]
        exact ⟨hnumbers.limit, hnumbers.step, hnumbers.index⟩
      · have hconfusion := hnumeric hnum hnumbers
        exact keeps_numericLoop hV (fun u hu => ⟨hu, fun _ h => by cases h; exact hconfusion⟩) i t
    exact upholds_bind_at hV.toCalm hloop fun _ u _ => keeps_pure hV.toCalm _ u
  by_cases hprep : i.operation = .genericPrep
  · rw [hprep]
    have hhost := ((keeps_prelude Running.steady_sameHost.toMoving i).ends s _ _ ht).world
    have hloaded' : t.world.AllLoaded := hloaded.step haside.evolves hhost.size
    refine upholds_bind_at hV.toCalm (upholdsAt_genericPrep hV looping_raising
      fun loop hloop hopcode => ?_) fun _ u _ => keeps_pure hV.toCalm _ u
    have hloopVetted : loop.Vetted := hloaded'.vetted hloop
    have hunderlying : loop.underlying = .genericLoop := by
      rw [← hloopVetted.operation, Instruction.operation, hopcode, if_neg (by simp)]
    obtain ⟨n, hn⟩ := hloopVetted.count hunderlying
    exact upholds_loopArity hV.toCalm hn
  by_cases hloop : i.operation = .genericLoop
  · rw [hloop]
    obtain ⟨n, hn⟩ := hvetted.count (hvetted.operation ▸ hloop)
    exact keeps_genericLoop hV looping_raising (upholds_loopArity hV.toCalm hn) t
  · exact keeps_execute hV _ (fun _ => raising_countHit) (fun _ => making_raising)
      (fun h => absurd h hnum) (fun h => absurd h hprep) (fun h => absurd h hloop) t

end Effect

/-! ## Runs -/

namespace Machine

variable {m : Machine} {base : World} {P : Failure → Prop}

/-- The next step runs a numeric loop on registers of which one holds no number. -/
def Confuses (m : Machine) : Prop :=
  ∃ f i, m.dispatching? = some (f, i) ∧ i.operation = .numericLoop ∧ ¬ Effect.NumericAt f i

/-- What an instruction of loaded code raises is such a failure, if a confusion is whenever the step
can confuse kinds of values. -/
theorem FailsOnly.dispatch (hm : m.FailsOnly base P) (hP : Failure.Covers P)
    (hloaded : m.world.AllLoaded) (hconfuses : m.Confuses → P .confusion) (f : Frame)
    (i : Instruction) (t : Running) (failure : Failure) (hi : m.dispatching? = some (f, i))
    (hfails : Effect.dispatch i ⟨m.world, f, m.stack⟩ = .error failure t) : P failure := by
  have hraises : Effect.UpholdsAt (Effect.Raising base P) ⟨m.world, f, m.stack⟩
      (Effect.dispatch i) := Effect.raising_dispatch hP hloaded (dispatching_spec hi).2
    fun hop hnumbers => hconfuses ⟨f, i, hi, hop, hnumbers⟩
  unfold Effect.UpholdsAt Effect.failure? at hraises
  rw [hfails] at hraises
  exact (hraises ⟨hm.evolves, hm.host⟩).2 _ rfl

/-- No step makes a machine. -/
theorem allLoaded_step (h : m.world.AllLoaded) : m.step.world.AllLoaded :=
  h.step (step_evolves m) (step_sameHost m).size

theorem allLoaded_iterate (h : m.world.AllLoaded) (k : Nat) : (step^[k] m).world.AllLoaded := by
  induction k with
  | zero => exact h
  | succ k ih =>
    rw [Function.iterate_succ_apply']
    exact allLoaded_step ih

section Runs

variable {w : World} (hloaded : w.AllLoaded)
  (hhost : w.HostRaisesOnly w fun failure => failure.isScriptLevel = true) (function : Value)
  (args : List Value)

include hloaded hhost

end Runs

end Machine

end ScriptMachine
