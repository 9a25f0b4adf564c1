import ScriptMachine.Proofs.Machine.Transparency
import ScriptMachine.Proofs.Machine.Worlds

/-!
# Versions of a module

While a machine runs, breakpoints come and go in its module, and runs are counted.  A *version* of a
module differs from it in nothing else: the slots hold the same words, and an instruction has its
own operation or a breakpoint in its place.
-/

namespace ScriptMachine

/-! ## Versions -/

/-- An instruction is another one but for its breakpoint and its count of runs. -/
structure Instruction.VersionOf (i j : Instruction) : Prop where
  /-- They differ in the operation and the count at most. -/
  same : i = { j with opcode := i.opcode, hits := i.hits }
  /-- The operation is a breakpoint or the instruction's own. -/
  opcode : i.opcode = .breakpoint ∨ i.opcode = j.underlying

/-- A slot holds a version of what another one holds. -/
inductive Slot.VersionOf : Slot → Slot → Prop where
  /-- Instructions. -/
  | instruction {i j : Instruction} (h : i.VersionOf j) :
    VersionOf (.instruction i) (.instruction j)
  /-- Auxiliary words have one version. -/
  | aux (word : UInt32) : VersionOf (.aux word) (.aux word)

/-- The code of a prototype is a version of another one's. -/
def Prototype.VersionOf (p q : Prototype) : Prop :=
  ∀ k : Nat, Option.Rel Slot.VersionOf p.code[k]? q.code[k]?

/-- The codes of a module are versions of another one's. -/
def Module.VersionOf (m n : Module) : Prop :=
  ∀ k : Nat, Option.Rel Prototype.VersionOf m.prototypes[k]? n.prototypes[k]?

namespace Instruction.VersionOf

variable {i j : Instruction}

theorem refl (h : j.opcode = j.underlying) : j.VersionOf j := ⟨rfl, .inr h⟩

theorem underlying (h : i.VersionOf j) : i.underlying = j.underlying := by
  rw [h.same]

theorem operands (h : i.VersionOf j) : i.operands = j.operands := by
  rw [h.same]

/-- What runs is the instruction's own operation. -/
theorem operation (h : i.VersionOf j) : i.operation = i.underlying := by
  unfold Instruction.operation
  rcases h.opcode with hbreakpoint | hown
  · rw [if_pos hbreakpoint]
  · rw [hown, h.underlying]
    simp

/-- What is no breakpoint is the instruction's own operation. -/
theorem underlying_of_opcode {op : Opcode} (h : i.VersionOf j) (hi : i.opcode = op)
    (hop : op ≠ .breakpoint) : j.underlying = op := by
  rcases h.opcode with hbreakpoint | hown
  · exact absurd (hi.symm.trans hbreakpoint) hop
  · exact hown.symm.trans hi

theorem setBreakpoint (h : i.VersionOf j) (enabled : Bool) :
    VersionOf { i with opcode := if enabled then .breakpoint else i.underlying } j := by
  refine ⟨by rw [h.same], ?_⟩
  cases enabled with
  | false => exact .inr h.underlying
  | true => exact .inl rfl

theorem setHits (h : i.VersionOf j) (hits : UInt32) : VersionOf { i with hits } j :=
  ⟨by rw [h.same], h.opcode⟩

end Instruction.VersionOf

/-- Nothing else runs at a slot than the operation that was loaded there. -/
theorem Slot.VersionOf.operation {s t : Slot} (h : s.VersionOf t) :
    s.asInstruction.operation = s.asInstruction.underlying := by
  cases h with
  | instruction hij => exact hij.operation
  | aux word => rfl

/-! ## Changes of a module -/

section Changes

variable {f : Instruction → Instruction}

theorem Prototype.VersionOf.modifyInstruction {p q : Prototype} (h : p.VersionOf q) (slot : Nat)
    (hf : ∀ {i j : Instruction}, i.VersionOf j → (f i).VersionOf j) :
    (p.modifyInstruction slot f).VersionOf q := by
  refine modify_rel_left h slot fun s t _ _ hst => ?_
  cases hst with
  | instruction hij => exact .instruction (hf hij)
  | aux word => exact .aux word

theorem Prototype.VersionOf.mapInstructions {p q : Prototype} (h : p.VersionOf q)
    (hf : ∀ {i j : Instruction}, i.VersionOf j → (f i).VersionOf j) :
    (p.mapInstructions f).VersionOf q := by
  intro k
  unfold Prototype.mapInstructions
  rw [Array.getElem?_map]
  rcases rel_cases (h k) with ⟨hp, hq⟩ | ⟨s, t, hp, hq, hst⟩
  · rw [hp, hq]
    exact .none
  · rw [hp, hq]
    cases hst with
    | instruction hij => exact .some (.instruction (hf hij))
    | aux word => exact .some (.aux word)

namespace Module.VersionOf

variable {m m' n : Module}

/-- A module without breakpoints is a version of itself. -/
theorem refl (h : n.Unpatched) : n.VersionOf n := by
  intro index
  cases hp : n.prototypes[index]? with
  | none => exact .none
  | some p =>
    refine .some fun slot => ?_
    cases hs : p.code[slot]? with
    | none => exact .none
    | some s =>
      cases s with
      | instruction i => exact .some (.instruction (.refl (h index slot p i hp hs)))
      | aux word => exact .some (.aux word)

theorem prototype (h : m.VersionOf n) (index : Nat) :
    (m.prototype index).VersionOf (n.prototype index) :=
  getD_rel (h index) fun _ => .none

theorem modifyInstruction (h : m.VersionOf n) (index slot : Nat)
    (hf : ∀ {i j : Instruction}, i.VersionOf j → (f i).VersionOf j) :
    (m.modifyInstruction index slot f).VersionOf n :=
  modify_rel_left h index fun _ _ _ _ hpq => hpq.modifyInstruction slot hf

theorem setBreakpoint (h : m.VersionOf n) {index slot : Nat} {enabled : Bool}
    (hset : m.setBreakpoint index slot enabled = .ok m') : m'.VersionOf n := by
  unfold Module.setBreakpoint at hset
  split at hset
  · cases hset
  · split at hset
    · cases hset
    · cases hset
      exact h.modifyInstruction index slot fun hij => hij.setBreakpoint enabled

theorem countHit (h : m.VersionOf n) (index slot : Nat) : (m.countHit index slot).VersionOf n :=
  h.modifyInstruction index slot fun hij => hij.setHits _

theorem resetCoverage (h : m.VersionOf n) : m.resetCoverage.VersionOf n := by
  intro index
  unfold Module.resetCoverage
  rw [Array.getElem?_map]
  rcases rel_cases (h index) with ⟨hm, hn⟩ | ⟨p, q, hm, hn, hpq⟩
  · rw [hm, hn]
    exact .none
  · rw [hm, hn]
    exact .some (hpq.mapInstructions fun hij => hij.setHits 0)

end Module.VersionOf

end Changes

/-! ## Machines that evolve -/

/-- Whatever happens to a machine, its module stays a version of what it was loaded as. -/
theorem Vm.Evolves.versionOf {vm vm' : Vm} {n : Module} (h : vm.Evolves vm')
    (hvm : vm.module.VersionOf n) : vm'.module.VersionOf n := by
  induction h with
  | refl => exact hvm
  | tail _ change ih =>
    cases change with
    | traced | depth | closed | released => exact ih
    | «breakpoint» hset => exact ih.setBreakpoint hset
    | hit index slot => exact ih.countHit index slot
    | reset => exact ih.resetCoverage

/-- A machine of a world runs a version of a module. -/
def World.Runs (w : World) (id : VmId) (n : Module) : Prop :=
  ∃ vm, w.vm? id = some vm ∧ vm.module.VersionOf n

theorem World.Evolves.runs {w w' : World} {id : VmId} {n : Module} (h : w.Evolves w')
    (hw : w.Runs id n) : w'.Runs id n := by
  obtain ⟨vm, hvm, hversion⟩ := hw
  obtain ⟨vm', hvm', hevolves⟩ := h.machine hvm
  exact ⟨vm', hvm', hevolves.versionOf hversion⟩

/-- So it does when it has just been made for the module. -/
theorem World.runs_createVm (w : World) {n : Module} (hn : n.Unpatched)
    (environment : Option TableId) (settings : Settings) :
    (w.createVm n environment settings).2.Runs (w.createVm n environment settings).1.vm n := by
  refine ⟨{ module := n, environment, settings }, ?_, .refl hn⟩
  show (w.vms.push _)[w.vms.size]? = _
  simp

end ScriptMachine
