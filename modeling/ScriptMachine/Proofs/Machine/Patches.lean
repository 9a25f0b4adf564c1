import Mathlib
import ScriptMachine.Machine.Load

/-!
# Worlds with more breakpoints

A world is a *patch* of another one when they are the same but for one machine, and that machine the
same but for breakpoints which it has in addition.  Such breakpoints are only allowed where nobody
can tell them from the operations that they stand in for: the hooks that see them must do nothing.
What the machine does outside its code keeps a patch a patch.
-/

namespace ScriptMachine

/-! ## Patches -/

/-- The hooks that see the operation of an instruction do nothing, and no breakpoint ends a frame. -/
structure Hooks.Transparent (hooks : Hooks) : Prop where
  /-- The step hook does nothing. -/
  step : ∀ hook, hooks.step = some hook → ∀ context w, (hook context).perform w = (w, .ok ())
  /-- The breakpoint hook does nothing and gives no values. -/
  breakpoint : ∀ hook, hooks.breakpoint = some hook →
    ∀ context w, (hook context).perform w = (w, .ok none)

/-- Hooks that are not there do nothing. -/
theorem Hooks.Transparent.of_none {hooks : Hooks} (hstep : hooks.step = none)
    (hbreakpoint : hooks.breakpoint = none) : hooks.Transparent where
  step hook h := by
    rw [hstep] at h
    cases h
  breakpoint hook h := by
    rw [hbreakpoint] at h
    cases h

/-- An instruction is another one, or that one with a breakpoint where these are allowed. -/
structure Instruction.PatchOf (allowed : Prop) (i j : Instruction) : Prop where
  /-- The instructions differ in their operations at most. -/
  same : i = { j with opcode := i.opcode }
  /-- The operations differ by a breakpoint at most. -/
  opcode : i.opcode = j.opcode ∨ allowed ∧ i.opcode = .breakpoint ∧ j.opcode = j.underlying

/-- A slot is another one, or that one with a breakpoint. -/
inductive Slot.PatchOf (allowed : Prop) : Slot → Slot → Prop where
  /-- Instructions. -/
  | instruction {i j : Instruction} (h : i.PatchOf allowed j) :
      PatchOf allowed (.instruction i) (.instruction j)
  /-- Auxiliary words have no breakpoints. -/
  | aux (word : UInt32) : PatchOf allowed (.aux word) (.aux word)

/-- A prototype is another one with more breakpoints. -/
structure Prototype.PatchOf (allowed : Prop) (p q : Prototype) : Prop where
  /-- All but the code and the constants is the same. -/
  header : p.toPrototypeHeader = q.toPrototypeHeader
  /-- The constants are the same. -/
  constants : p.constants = q.constants
  /-- The slots are the same but for breakpoints. -/
  code : ∀ k : Nat, Option.Rel (Slot.PatchOf allowed) p.code[k]? q.code[k]?

/-- A module is another one with more breakpoints. -/
structure Module.PatchOf (allowed : Prop) (m n : Module) : Prop where
  /-- The main prototype is the same. -/
  main : m.main = n.main
  /-- The prototypes are the same but for breakpoints. -/
  prototypes : ∀ k : Nat, Option.Rel (Prototype.PatchOf allowed) m.prototypes[k]? n.prototypes[k]?

/-- A machine is another one, with more breakpoints if its hooks are transparent and these are
allowed in it. -/
structure Vm.PatchOf (allowed : Prop) (v u : Vm) : Prop where
  /-- The module is the same but for breakpoints. -/
  module : v.module.PatchOf (allowed ∧ v.settings.hooks.Transparent) u.module
  /-- The environment is the same. -/
  environment : v.environment = u.environment
  /-- The settings are the same. -/
  settings : v.settings = u.settings
  /-- Both are closed, or none is. -/
  alive : v.alive = u.alive
  /-- The host holds both, or none. -/
  held : v.held = u.held
  /-- The same count of calls is in progress. -/
  depth : v.depth = u.depth
  /-- The same count of instructions has been traced. -/
  traced : v.traced = u.traced

/-- A world is another one, with more breakpoints in one machine.  The traces, which show
breakpoints, may differ. -/
structure World.PatchOf (id : VmId) (w u : World) : Prop where
  /-- The tables are the same. -/
  heap : w.heap = u.heap
  /-- The functions are the same. -/
  functions : w.functions = u.functions
  /-- The captured variables are the same. -/
  cells : w.cells = u.cells
  /-- The machines are the same but for breakpoints in one of them. -/
  vms : ∀ k : Nat, Option.Rel (Vm.PatchOf (k = id.index)) w.vms[k]? u.vms[k]?
  /-- The same has been written. -/
  output : w.output = u.output
  /-- The same has been recorded. -/
  events : w.events = u.events
  /-- Hooks have been counted as often. -/
  counts : w.counts = u.counts
  /-- The next frame gets the same number. -/
  nextFrame : w.nextFrame = u.nextFrame

/-! ## Instructions and slots -/

section Slots

variable {allowed : Prop}

theorem rel_refl {α : Type} {R : α → α → Prop} (h : ∀ a, R a a) (o : Option α) :
    Option.Rel R o o := by
  cases o with
  | none => exact .none
  | some a => exact .some (h a)

namespace Instruction.PatchOf

theorem refl (i : Instruction) : i.PatchOf allowed i := ⟨rfl, .inl rfl⟩

variable {i j : Instruction}

theorem underlying (h : i.PatchOf allowed j) : i.underlying = j.underlying := by
  rw [h.same]

theorem operands (h : i.PatchOf allowed j) : i.operands = j.operands := by
  rw [h.same]

theorem constant (h : i.PatchOf allowed j) : i.constant = j.constant := by
  rw [h.same]

theorem hits (h : i.PatchOf allowed j) : i.hits = j.hits := by
  rw [h.same]

/-- Counting a run keeps a patch. -/
theorem countHit (h : i.PatchOf allowed j) :
    ({ i with hits := i.hits + 1 } : Instruction).PatchOf allowed { j with hits := j.hits + 1 } := by
  obtain ⟨hsame, hopcode⟩ := h
  refine ⟨?_, hopcode⟩
  rw [hsame]

/-- Setting or clearing the same breakpoint keeps a patch. -/
theorem setBreakpoint (h : i.PatchOf allowed j) (enabled : Bool) :
    ({ i with opcode := if enabled then .breakpoint else i.underlying } : Instruction).PatchOf allowed
      { j with opcode := if enabled then .breakpoint else j.underlying } := by
  have hunderlying := h.underlying
  refine ⟨?_, .inl ?_⟩
  · rw [h.same]
  · simp only [hunderlying]

end Instruction.PatchOf

theorem Slot.PatchOf.refl (s : Slot) : s.PatchOf allowed s := by
  cases s with
  | instruction i => exact .instruction (.refl i)
  | aux word => exact .aux word

theorem Slot.PatchOf.asInstruction {s t : Slot} (h : s.PatchOf allowed t) :
    s.asInstruction.PatchOf allowed t.asInstruction := by
  cases h with
  | instruction h => exact h
  | aux word => exact .refl _

end Slots

/-! ## Prototypes and modules -/

section Modules

variable {allowed : Prop}

/-- Of related options both have values, which are related, or none has. -/
theorem rel_cases {α β : Type} {R : α → β → Prop} {a? : Option α} {b? : Option β}
    (h : Option.Rel R a? b?) :
    (a? = none ∧ b? = none) ∨ ∃ a b, a? = some a ∧ b? = some b ∧ R a b := by
  cases h with
  | none => exact .inl ⟨rfl, rfl⟩
  | some h => exact .inr ⟨_, _, rfl, rfl, h⟩

theorem map_rel {α β γ δ : Type} {R : α → β → Prop} {S : γ → δ → Prop} {f : α → γ} {g : β → δ}
    {a : Option α} {b : Option β} (h : Option.Rel R a b) (hf : ∀ a b, R a b → S (f a) (g b)) :
    Option.Rel S (a.map f) (b.map g) := by
  cases h with
  | none => exact .none
  | some h => exact .some (hf _ _ h)

theorem eq_of_rel {α : Type} {a b : Option α} (h : Option.Rel (· = ·) a b) : a = b := by
  cases h with
  | none => rfl
  | some h => rw [h]

/-- Elements of related arrays, or what stands for them outside the arrays, are related. -/
theorem getD_rel {α β : Type} {R : α → β → Prop} {as : Array α} {bs : Array β} {i : Nat} {a : α}
    {b : β} (h : Option.Rel R as[i]? bs[i]?) (hdefault : R a b) : R (as.getD i a) (bs.getD i b) := by
  rw [Array.getD_eq_getD_getElem?, Array.getD_eq_getD_getElem?]
  rcases rel_cases h with ⟨ha, hb⟩ | ⟨x, y, ha, hb, hxy⟩
  · rw [ha, hb]
    exact hdefault
  · rw [ha, hb]
    exact hxy

/-- Changing related elements at one place keeps arrays related. -/
theorem modify_rel {α β : Type} {R : Nat → α → β → Prop} {f : α → α} {g : β → β} {as : Array α}
    {bs : Array β} (h : ∀ k : Nat, Option.Rel (R k) as[k]? bs[k]?) (i : Nat)
    (hf : ∀ a b, as[i]? = some a → bs[i]? = some b → R i a b → R i (f a) (g b)) (k : Nat) :
    Option.Rel (R k) (as.modify i f)[k]? (bs.modify i g)[k]? := by
  rw [Array.getElem?_modify, Array.getElem?_modify]
  by_cases hk : i = k
  · subst hk
    simp only [if_true]
    rcases rel_cases (h i) with ⟨ha, hb⟩ | ⟨a, b, ha, hb, hab⟩
    · rw [ha, hb]
      exact .none
    · rw [ha, hb]
      exact .some (hf a b ha hb hab)
  · simp only [hk, if_false]
    exact h k

/-- Changing elements on one side at a place keeps arrays related. -/
theorem modify_rel_left {α β : Type} {R : Nat → α → β → Prop} {f : α → α} {as : Array α}
    {bs : Array β} (h : ∀ k : Nat, Option.Rel (R k) as[k]? bs[k]?) (i : Nat)
    (hf : ∀ a b, as[i]? = some a → bs[i]? = some b → R i a b → R i (f a) b) (k : Nat) :
    Option.Rel (R k) (as.modify i f)[k]? bs[k]? := by
  have hsame : (bs.modify i fun b => b)[k]? = bs[k]? := by
    rw [Array.getElem?_modify]
    cases bs[k]? <;> simp
  rw [← hsame]
  exact modify_rel h i hf k

namespace Prototype.PatchOf

theorem refl (p : Prototype) : p.PatchOf allowed p :=
  ⟨rfl, rfl, fun _ => rel_refl Slot.PatchOf.refl _⟩

variable {p q : Prototype}

/-- The instructions at a slot differ by a breakpoint at most. -/
theorem slot (h : p.PatchOf allowed q) (k : Nat) :
    Option.Rel (Instruction.PatchOf allowed) (p.code[k]?.map Slot.asInstruction)
      (q.code[k]?.map Slot.asInstruction) :=
  map_rel (h.code k) fun _ _ hs => hs.asInstruction

theorem underlyingAt? (h : p.PatchOf allowed q) (k : Nat) : p.underlyingAt? k = q.underlyingAt? k :=
  eq_of_rel (map_rel (h.code k) fun _ _ hs => hs.asInstruction.underlying)

theorem instruction? (h : p.PatchOf allowed q) (k : Nat) :
    Option.Rel (Instruction.PatchOf allowed) (p.instruction? k) (q.instruction? k) := by
  have hcode := h.code k
  unfold Prototype.instruction?
  rcases rel_cases hcode with ⟨hp, hq⟩ | ⟨s, t, hp, hq, hs⟩ <;> rw [hp, hq]
  · exact .none
  · cases hs with
    | instruction hi => exact .some hi
    | aux word => exact .none

theorem name (h : p.PatchOf allowed q) : p.name = q.name :=
  congrArg PrototypeHeader.name h.header

theorem modifyInstruction (h : p.PatchOf allowed q) (slot : Nat) {f g : Instruction → Instruction}
    (hf : ∀ i j : Instruction, i.PatchOf allowed j → (f i).PatchOf allowed (g j)) :
    (p.modifyInstruction slot f).PatchOf allowed (q.modifyInstruction slot g) := by
  refine ⟨h.header, h.constants, modify_rel h.code slot ?_⟩
  intro s t _ _ hs
  cases hs with
  | instruction hi => exact .instruction (hf _ _ hi)
  | aux word => exact .aux word

end Prototype.PatchOf

namespace Module.PatchOf

theorem refl (m : Module) : m.PatchOf allowed m :=
  ⟨rfl, fun _ => rel_refl Prototype.PatchOf.refl _⟩

variable {m n : Module}

theorem prototype (h : m.PatchOf allowed n) (index : Nat) :
    (m.prototype index).PatchOf allowed (n.prototype index) :=
  getD_rel (h.prototypes index) (.refl _)

theorem size (h : m.PatchOf allowed n) : m.prototypes.size = n.prototypes.size := by
  have hnone : ∀ k : Nat, m.prototypes[k]? = none ↔ n.prototypes[k]? = none := by
    intro k
    rcases rel_cases (h.prototypes k) with ⟨hm, hn⟩ | ⟨p, q, hm, hn, -⟩ <;> simp [hm, hn]
  have hm := (hnone m.prototypes.size).1 (by simp)
  have hn := (hnone n.prototypes.size).2 (by simp)
  simp only [Array.getElem?_eq_none_iff] at hm hn
  omega

theorem modifyInstruction (h : m.PatchOf allowed n) (index slot : Nat)
    {f g : Instruction → Instruction}
    (hf : ∀ i j : Instruction, i.PatchOf allowed j → (f i).PatchOf allowed (g j)) :
    (m.modifyInstruction index slot f).PatchOf allowed (n.modifyInstruction index slot g) :=
  ⟨h.main, modify_rel h.prototypes index fun _ _ _ _ hp => hp.modifyInstruction slot hf⟩

theorem countHit (h : m.PatchOf allowed n) (index slot : Nat) :
    (m.countHit index slot).PatchOf allowed (n.countHit index slot) :=
  h.modifyInstruction index slot fun _ _ hi => hi.countHit

/-- The same breakpoint can be set in both modules or in none, for the same reason. -/
theorem setBreakpoint (h : m.PatchOf allowed n) (index slot : Nat) (enabled : Bool) :
    (∃ missing, m.setBreakpoint index slot enabled = .error missing ∧
        n.setBreakpoint index slot enabled = .error missing) ∨
      ∃ m' n', m.setBreakpoint index slot enabled = .ok m' ∧
        n.setBreakpoint index slot enabled = .ok n' ∧ m'.PatchOf allowed n' := by
  unfold Module.setBreakpoint
  rcases rel_cases (h.prototypes index) with ⟨hm, hn⟩ | ⟨p, q, hm, hn, hpq⟩ <;> rw [hm, hn]
  · exact .inl ⟨_, rfl, rfl⟩
  · rcases rel_cases (hpq.instruction? slot) with ⟨hp, hq⟩ | ⟨i, j, hp, hq, -⟩
    · simp only [hp, hq]
      exact .inl ⟨_, rfl, rfl⟩
    · simp only [hp, hq]
      refine .inr ⟨_, _, rfl, rfl, ?_⟩
      exact h.modifyInstruction index slot fun _ _ hi => hi.setBreakpoint enabled

end Module.PatchOf

end Modules

/-! ## Machines and worlds -/

namespace Vm.PatchOf

variable {allowed : Prop} {v u : Vm}

theorem refl (v : Vm) : v.PatchOf allowed v := ⟨.refl _, rfl, rfl, rfl, rfl, rfl, rfl⟩

theorem prototype (h : v.PatchOf allowed u) (index : Nat) :
    (v.prototype index).PatchOf (allowed ∧ v.settings.hooks.Transparent) (u.prototype index) :=
  h.module.prototype index

end Vm.PatchOf

namespace World.PatchOf

variable {id : VmId} {w u : World}

theorem refl (id : VmId) (w : World) : w.PatchOf id w :=
  ⟨rfl, rfl, rfl, fun _ => rel_refl Vm.PatchOf.refl _, rfl, rfl, rfl, rfl⟩

theorem vm? (h : w.PatchOf id u) (k : VmId) :
    Option.Rel (Vm.PatchOf (k.index = id.index)) (w.vm? k) (u.vm? k) := h.vms k.index

theorem vm (h : w.PatchOf id u) (k : VmId) :
    (w.vms.getD k.index .empty).PatchOf (k.index = id.index) (u.vms.getD k.index .empty) :=
  getD_rel (h.vms k.index) (.refl _)

theorem function? (h : w.PatchOf id u) (f : FunctionId) : w.function? f = u.function? f := by
  unfold World.function?
  rw [h.functions]

/-- Changing a machine on both sides in a way that keeps patches. -/
theorem modifyVm (h : w.PatchOf id u) (k : VmId) {f g : Vm → Vm}
    (hf : ∀ v v' : Vm, w.vm? k = some v → u.vm? k = some v' → v.PatchOf (k.index = id.index) v' →
      (f v).PatchOf (k.index = id.index) (g v')) :
    (w.modifyVm k f).PatchOf id (u.modifyVm k g) := by
  exact { h with vms := modify_rel h.vms k.index hf }

theorem close (h : w.PatchOf id u) (k : VmId) : (w.close k).PatchOf id (u.close k) :=
  h.modifyVm k fun _ _ _ _ hv => { hv with alive := by simp only [hv.alive, hv.held] }

theorem release (h : w.PatchOf id u) (k : VmId) : (w.release k).PatchOf id (u.release k) :=
  h.modifyVm k fun _ _ _ _ hv => { hv with held := rfl }

theorem record (h : w.PatchOf id u) (event : Event) :
    (w.record event).PatchOf id (u.record event) := by
  refine { h with events := ?_ }
  show w.events.push (event, w.heap) = u.events.push (event, u.heap)
  rw [h.events, h.heap]

theorem countOf (h : w.PatchOf id u) (k : VmId) (kind : HookKind) :
    w.countOf k kind = u.countOf k kind := by
  unfold World.countOf
  rw [h.counts]

theorem countUp (h : w.PatchOf id u) (k : VmId) (kind : HookKind) :
    (w.countUp k kind).PatchOf id (u.countUp k kind) := by
  refine { h with counts := ?_ }
  show ((k, kind), w.countOf k kind + 1) :: _ = ((k, kind), u.countOf k kind + 1) :: _
  rw [h.countOf, h.counts]

theorem createFunction (h : w.PatchOf id u) (body : FunctionBody) :
    (w.createFunction body).1 = (u.createFunction body).1 ∧
      (w.createFunction body).2.PatchOf id (u.createFunction body).2 := by
  refine ⟨?_, { h with functions := ?_ }⟩
  · show FunctionId.mk w.functions.size = FunctionId.mk u.functions.size
    rw [h.functions]
  · show w.functions.push body = u.functions.push body
    rw [h.functions]

/-- The same breakpoint can be set in both worlds or in none, for the same reason. -/
theorem setBreakpoint (h : w.PatchOf id u) (k : VmId) (index slot : Nat) (enabled : Bool) :
    (∃ missing, w.setBreakpoint k index slot enabled = .error missing ∧
        u.setBreakpoint k index slot enabled = .error missing) ∨
      ∃ w' u', w.setBreakpoint k index slot enabled = .ok w' ∧
        u.setBreakpoint k index slot enabled = .ok u' ∧ w'.PatchOf id u' := by
  unfold World.setBreakpoint
  rcases rel_cases (h.vm? k) with ⟨hw, hu⟩ | ⟨v, v', hw, hu, hvv⟩ <;> rw [hw, hu]
  · exact .inr ⟨w, u, rfl, rfl, h⟩
  · by_cases hheld : v.held
    · have hheld' : v'.held := hvv.held ▸ hheld
      simp only [hheld, hheld', if_true]
      rcases hvv.module.setBreakpoint index slot enabled with
        ⟨missing, hm, hn⟩ | ⟨m, n, hm, hn, hpatch⟩
      · rw [hm, hn]
        exact .inl ⟨missing, rfl, rfl⟩
      · rw [hm, hn]
        refine .inr ⟨_, _, rfl, rfl, h.modifyVm k fun a b ha hb hab => ?_⟩
        obtain rfl : v = a := Option.some.inj (hw.symm.trans ha)
        exact { hab with module := hpatch }
    · have hheld' : ¬ v'.held := hvv.held ▸ hheld
      simp only [hheld, hheld']
      exact .inr ⟨w, u, rfl, rfl, h⟩

/-! ## Programs of the host -/

/-- Programs of the host cannot tell a patch from what it patches. -/
theorem settle {κ α : Type} (h : w.PatchOf id u) (p : Program κ α) :
    (p.settle w).1.PatchOf id (p.settle u).1 ∧ (p.settle w).2 = (p.settle u).2 := by
  induction p generalizing w u with
  | done result => exact ⟨h, rfl⟩
  | fail failure => exact ⟨h, rfl⟩
  | call target resume => exact ⟨h, rfl⟩
  | get t key resume ih =>
    simp only [Program.settle, h.heap]
    exact ih _ h
  | set t key value rest ih =>
    simp only [Program.settle, h.heap]
    split
    · exact ih { h with heap := rfl }
    · exact ⟨h, rfl⟩
  | next t key resume ih =>
    simp only [Program.settle, h.heap]
    split
    · exact ih _ h
    · exact ⟨h, rfl⟩
  | length t resume ih =>
    simp only [Program.settle, h.heap]
    exact ih _ h
  | write bytes rest ih =>
    simp only [Program.settle, h.output]
    exact ih { h with output := rfl }
  | close k rest ih => exact ih (h.close k)
  | release k rest ih => exact ih (h.release k)
  | breakpoint k index slot enabled rest ih =>
    simp only [Program.settle]
    rcases h.setBreakpoint k index slot enabled with ⟨missing, hw, hu⟩ | ⟨w', u', hw, hu, hpatch⟩
    · rw [hw, hu]
      exact ⟨h, rfl⟩
    · rw [hw, hu]
      exact ih hpatch
  | record event rest ih => exact ih (h.record event)
  | count k kind resume ih =>
    simp only [Program.settle, (h.countUp k kind).countOf]
    exact ih _ (h.countUp k kind)

theorem perform {α : Type} (h : w.PatchOf id u) (p : HookProgram α) :
    (p.perform w).1.PatchOf id (p.perform u).1 ∧ (p.perform w).2 = (p.perform u).2 := by
  obtain ⟨hworld, hresult⟩ := h.settle p
  unfold Program.perform
  rcases hw : p.settle w with ⟨w', r⟩
  rcases hu : p.settle u with ⟨u', r'⟩
  rw [hw, hu] at hworld hresult
  cases hresult
  cases r with
  | done result => exact ⟨hworld, rfl⟩
  | fail failure => exact ⟨hworld, rfl⟩
  | call target resume => cases target

end World.PatchOf

end ScriptMachine
