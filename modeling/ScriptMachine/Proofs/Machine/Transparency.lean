import ScriptMachine.Proofs.Machine.Divergence
import ScriptMachine.Proofs.Machine.Hosts

/-!
# Transparent breakpoints

A machine that has just been loaded has no breakpoints, so setting some makes a patch of it.  A call
of its main function then ends as it does without them, unless an instruction looks for an operation
that one of them hides.
-/

namespace ScriptMachine

/-! ## Modules without breakpoints -/

/-- No instruction has a breakpoint. -/
def Module.Unpatched (m : Module) : Prop :=
  ∀ (index slot : Nat) (p : Prototype) (i : Instruction), m.prototypes[index]? = some p →
    p.code[slot]? = some (.instruction i) → i.opcode = i.underlying

namespace LoadOptions

variable (options : LoadOptions)

theorem linkInstruction_unpatched (heap : Heap) (constants : Array Constant) (u : CodeUnit) :
    (options.linkInstruction heap constants u).opcode =
      (options.linkInstruction heap constants u).underlying := by
  unfold linkInstruction
  dsimp only
  split <;> rfl

/-- What holds of all results of a step holds of all that the step gives in a row. -/
theorem mapM_forall {σ α β : Type} {f : α → StateM σ β} {P : β → Prop} (hf : ∀ a s, P (f a s).1)
    (as : List α) (s : σ) : ∀ b ∈ (as.mapM f s).1, P b := by
  induction as generalizing s with
  | nil => simp [List.mapM_nil, pure, StateT.pure]
  | cons a as ih =>
    rw [List.mapM_cons]
    intro b hb
    have hcons : ((do let b ← f a; let bs ← as.mapM f; pure (b :: bs) : StateM σ (List β)) s).1 =
        (f a s).1 :: (as.mapM f (f a s).2).1 := rfl
    rw [hcons] at hb
    rcases List.mem_cons.1 hb with rfl | hb
    · exact hf a s
    · exact ih _ b hb

theorem linkPrototype_unpatched (p : PrototypeImage) (heap : Heap) (slot : Nat) (i : Instruction)
    (h : (options.linkPrototype p heap).1.code[slot]? = some (.instruction i)) :
    i.opcode = i.underlying := by
  have hcode : ∃ (linked : Heap) (constants : Array Constant),
      (options.linkPrototype p heap).1.code =
        (p.code.flatMap (options.linkUnit linked constants)).toArray :=
    ⟨(p.constants.mapM options.linkConstant heap).2,
      (p.constants.mapM options.linkConstant heap).1.toArray, rfl⟩
  obtain ⟨linked, constants, hcode⟩ := hcode
  rw [hcode, List.getElem?_toArray] at h
  obtain ⟨u, -, hslot⟩ := List.mem_flatMap.1 (List.mem_of_getElem? h)
  rcases List.mem_cons.1 hslot with hi | haux
  · cases hi
    exact options.linkInstruction_unpatched linked constants u
  · cases haux' : u.aux with
    | none => simp [haux'] at haux
    | some word => simp [haux'] at haux

theorem load_unpatched {bytes : Bytes} {heap heap' : Heap} {m : Module}
    (h : options.load bytes heap = .ok (m, heap')) : m.Unpatched := by
  unfold load at h
  cases hread : Image.read (options.decodeWord.getD id) bytes with
  | error reason =>
    rw [hread] at h
    cases h
  | ok image =>
    rw [hread] at h
    have hm : m = (options.link image heap).1 := (congrArg Prod.fst (Except.ok.inj h)).symm
    have hprototypes : m.prototypes =
        (image.prototypes.mapM options.linkPrototype heap).1.toArray := by rw [hm]; rfl
    intro index slot p i hp hi
    rw [hprototypes, List.getElem?_toArray] at hp
    exact mapM_forall (P := fun p => ∀ slot i, p.code[slot]? = some (.instruction i) →
        i.opcode = i.underlying) (fun p heap slot i => options.linkPrototype_unpatched p heap slot i)
      image.prototypes heap p (List.mem_of_getElem? hp) slot i hi

end LoadOptions

/-! ## Setting breakpoints -/

section Setting

variable {allowed : Prop}

/-- A breakpoint on one side makes a patch where there was none on the other. -/
theorem Instruction.PatchOf.patch {i j : Instruction} (h : i.PatchOf allowed j) (hallowed : allowed)
    (hj : j.opcode = j.underlying) :
    ({ i with opcode := .breakpoint } : Instruction).PatchOf allowed j := by
  refine ⟨?_, .inr ⟨hallowed, rfl, hj⟩⟩
  rw [h.same]

theorem Module.PatchOf.patch {m n m' : Module} (h : m.PatchOf allowed n) (hallowed : allowed)
    (hn : n.Unpatched) {index slot : Nat} (hset : m.setBreakpoint index slot true = .ok m') :
    m'.PatchOf allowed n := by
  unfold Module.setBreakpoint at hset
  split at hset
  · cases hset
  · split at hset
    · cases hset
    · cases hset
      refine ⟨h.main, modify_rel_left h.prototypes index fun p q _ hq hpq => ?_⟩
      refine ⟨hpq.header, hpq.constants, modify_rel_left hpq.code slot fun s t _ ht hst => ?_⟩
      cases hst with
      | aux word => exact .aux word
      | instruction hij => exact .instruction (hij.patch hallowed (hn index slot q _ hq ht))

end Setting

/-- The world with breakpoints set in a machine, when there are instructions at all these places. -/
def World.setBreakpoints (w : World) (id : VmId) (places : List (Nat × Nat)) :
    Except MissingSlot World :=
  places.foldlM (fun w place => w.setBreakpoint id place.1 place.2 true) w

section Worlds

variable {id : VmId} {w w' u : World} {v : Vm}

theorem World.PatchOf.patch (h : w.PatchOf id u) (hv : u.vm? id = some v)
    (hn : v.module.Unpatched) (hooks : v.settings.hooks.Transparent) {index slot : Nat}
    (hset : w.setBreakpoint id index slot true = .ok w') : w'.PatchOf id u := by
  have hvm := h.vm? id
  unfold World.setBreakpoint at hset
  rw [hv] at hvm
  cases hw : w.vm? id with
  | none =>
    rw [hw] at hset
    cases hset
    exact h
  | some v' =>
    rw [hw] at hset hvm
    cases hvm
    rename_i hvv
    dsimp only at hset
    split at hset
    · cases hm : v'.module.setBreakpoint index slot true with
      | error missing =>
        rw [hm] at hset
        cases hset
      | ok m =>
        rw [hm] at hset
        cases hset
        refine { h with vms := fun k => ?_ }
        refine modify_rel_left h.vms id.index (fun a b ha hb hab => ?_) k
        obtain rfl : a = v' := Option.some.inj (ha.symm.trans hw)
        obtain rfl : b = v := Option.some.inj (hb.symm.trans hv)
        exact { hab with module := hvv.module.patch ⟨rfl, hvv.settings ▸ hooks⟩ hn hm }
    · cases hset
      exact h

theorem World.PatchOf.setBreakpoints (h : w.PatchOf id u) (hv : u.vm? id = some v)
    (hn : v.module.Unpatched) (hooks : v.settings.hooks.Transparent) (places : List (Nat × Nat))
    (hset : w.setBreakpoints id places = .ok w') : w'.PatchOf id u := by
  unfold World.setBreakpoints at hset
  -- each breakpoint goes to the left side only, and the right side stays without any
  induction places generalizing w with
  | nil =>
    cases hset
    exact h
  | cons place places ih =>
    rw [List.foldlM_cons] at hset
    cases hplace : w.setBreakpoint id place.1 place.2 true with
    | error missing =>
      rw [hplace] at hset
      cases hset
    | ok w'' =>
      rw [hplace] at hset
      exact ih (h.patch hv hn hooks hplace) hset

/-- A loaded machine that gets breakpoints is a patch of itself. -/
theorem World.patchOf_of_load {w₀ w₁ : World} {bytes : Bytes} {environment : Option TableId}
    {settings : Settings} {entry : Entry} {places : List (Nat × Nat)}
    (hload : w.loadBytes bytes environment settings = .ok (entry, w₀))
    (hooks : settings.hooks.Transparent) (hset : w₀.setBreakpoints entry.vm places = .ok w₁) :
    w₁.PatchOf entry.vm w₀ := by
  obtain ⟨m, heap, hm, heq⟩ := World.createVm_of_loadBytes hload
  cases heq
  have hv : (World.createVm { w with heap } m environment settings).2.vm?
      (World.createVm { w with heap } m environment settings).1.vm =
        some { module := m, environment, settings } := by
    show (w.vms.push _)[w.vms.size]? = _
    simp
  exact (World.PatchOf.refl _ _).setBreakpoints hv (settings.load_unpatched hm) hooks places hset

end Worlds

/-! ## Calls -/

/-- How often the instruction at a slot has run, for coverage. -/
def World.hits? (w : World) (id : VmId) (index slot : Nat) : Option UInt32 :=
  ((w.vm? id).bind fun vm => (vm.prototype index).code[slot]?).map fun s => s.asInstruction.hits

/-- Two calls have ended in the same way, as far as the host can see. -/
structure SameEnd (r r' : World × Except Failure (List Value)) : Prop where
  /-- They have given the same results or failed for the same reason. -/
  outcome : r.2 = r'.2
  /-- They leave the same tables. -/
  heap : r.1.heap = r'.1.heap
  /-- Every instruction has counted the same runs. -/
  hits : ∀ id index slot, r.1.hits? id index slot = r'.1.hits? id index slot
  /-- They have written the same. -/
  output : r.1.output = r'.1.output
  /-- The host has recorded the same. -/
  events : r.1.events = r'.1.events

theorem World.PatchOf.hits? {id : VmId} {w u : World} (h : w.PatchOf id u) (k : VmId)
    (index slot : Nat) : w.hits? k index slot = u.hits? k index slot := by
  unfold World.hits?
  rcases rel_cases (h.vm? k) with ⟨hw, hu⟩ | ⟨v, v', hw, hu, hvv⟩ <;> rw [hw, hu]
  exact eq_of_rel (map_rel ((hvv.prototype index).code slot) fun _ _ hs => hs.asInstruction.hits)

/-- The run of the main function of a machine. -/
abbrev World.runOf (w : World) (entry : Entry) (args : List Value) : Machine :=
  .start w (.function entry.main) args

/-- A call ends in the same way on a patch, or goes on in the same way, when no operation looks at a
breakpoint. -/
theorem World.PatchOf.call {id : VmId} {w u : World} (h : w.PatchOf id u) (function : Value)
    (args : List Value) (fuel : Nat)
    (hlook : ∀ k < fuel, (Machine.step^[k] (Machine.start w function args)).looks id = false) :
    Option.Rel SameEnd (w.call fuel function args) (u.call fuel function args) := by
  have hrun := Machine.run_patch fuel (m := Machine.start w function args)
    (n := Machine.start u function args) ⟨h, rfl, rfl⟩ hlook
  unfold World.call
  generalize Machine.run fuel _ = r at hrun ⊢
  generalize Machine.run fuel _ = r' at hrun ⊢
  cases hrun with
  | none => exact .none
  | some hend => exact .some ⟨hend.2, hend.1.heap, hend.1.hits?, hend.1.output, hend.1.events⟩

/-- Breakpoints with transparent hooks change nothing about a call of the main function as long as
no operation looks for one that they hide.  Where an operation first does so, and it does not do so
without them, the two calls come apart. -/
theorem breakpoints_transparent {w w₀ w₁ : World} {bytes : Bytes} {environment : Option TableId}
    {settings : Settings} {entry : Entry} {places : List (Nat × Nat)}
    (hload : w.loadBytes bytes environment settings = .ok (entry, w₀))
    (hooks : settings.hooks.Transparent) (hset : w₀.setBreakpoints entry.vm places = .ok w₁)
    (args : List Value) :
    (∀ fuel, (∀ k < fuel, (Machine.step^[k] (w₁.runOf entry args)).looks entry.vm = false) →
        Option.Rel SameEnd (w₁.call fuel (.function entry.main) args)
          (w₀.call fuel (.function entry.main) args)) ∧
      ∀ k, (∀ j < k, (Machine.step^[j] (w₁.runOf entry args)).looks entry.vm = false) →
        (Machine.step^[k] (w₁.runOf entry args)).looks entry.vm = true →
        (Machine.step^[k] (w₀.runOf entry args)).looks entry.vm = false →
        (Machine.step^[k] (w₁.runOf entry args)).Apart
          (Machine.step^[k] (w₀.runOf entry args)) := by
  have hpatch := World.patchOf_of_load hload hooks hset
  refine ⟨hpatch.call _ args, fun k hbefore hlook hplain => ?_⟩
  have hstart : (w₁.runOf entry args).PatchOf entry.vm (w₀.runOf entry args) := ⟨hpatch, rfl, rfl⟩
  exact Machine.apart_of_looks (Machine.iterate_patch k hstart hbefore) hlook hplain

/-- A module whose main function makes a closure over the number seven and returns what that gives.
The closure has its only capture in the third slot. -/
def closingModule : Bytes :=
  [6, 1, 0, 2,
    1, 0, 1, 0, 0, 0, 2, 0x09, 0, 0, 0, 0x16, 0, 2, 0, 0, 0, 0, 0, 0, 0,
    2, 0, 0, 0, 0, 0, 5, 0x04, 1, 7, 0, 0x13, 0, 0, 0, 0x46, 0, 1, 0, 0x15, 0, 1, 2, 0x16, 0, 2, 0,
    0, 1, 0, 0, 0, 0, 0,
    1]

/-- Breakpoints everywhere but on the capture are transparent, and one on the capture is not. -/
theorem breakpoints_of_closingModule :
    ∃ entry w₀ w₁ w₂, World.loadBytes {} closingModule none {} = .ok (entry, w₀) ∧
      w₀.setBreakpoints entry.vm [(0, 0), (0, 1), (1, 0), (1, 1), (1, 3), (1, 4)] = .ok w₁ ∧
      w₀.setBreakpoints entry.vm [(1, 2)] = .ok w₂ ∧
      (w₀.call 12 (.function entry.main) []).isSome = true ∧
      Option.Rel SameEnd (w₁.call 12 (.function entry.main) [])
        (w₀.call 12 (.function entry.main) []) ∧
      (Machine.step^[2] (w₂.runOf entry [])).Apart (Machine.step^[2] (w₀.runOf entry [])) := by
  have hcheck :
      (match World.loadBytes {} closingModule none {} with
        | .ok (entry, w₀) =>
          match w₀.setBreakpoints entry.vm [(0, 0), (0, 1), (1, 0), (1, 1), (1, 3), (1, 4)],
            w₀.setBreakpoints entry.vm [(1, 2)] with
          | .ok w₁, .ok w₂ =>
            (w₀.call 12 (.function entry.main) []).isSome &&
            (List.range 12).all (fun k => !(Machine.step^[k] (w₁.runOf entry [])).looks entry.vm) &&
            (List.range 2).all (fun k => !(Machine.step^[k] (w₂.runOf entry [])).looks entry.vm) &&
            (Machine.step^[2] (w₂.runOf entry [])).looks entry.vm &&
            !(Machine.step^[2] (w₀.runOf entry [])).looks entry.vm
          | _, _ => false
        | .error _ => false) = true := by
    decide +kernel
  rcases hload : World.loadBytes {} closingModule none {} with reason | ⟨entry, w₀⟩
  · rw [hload] at hcheck
    cases hcheck
  rw [hload] at hcheck
  dsimp only at hcheck
  split at hcheck
  · rename_i w₁ w₂ hset hset'
    simp only [Bool.and_eq_true, List.all_eq_true, List.mem_range, Bool.not_eq_true'] at hcheck
    obtain ⟨⟨⟨⟨hends, hnever⟩, hbefore⟩, hlook⟩, hplain⟩ := hcheck
    exact ⟨entry, w₀, w₁, w₂, rfl, hset, hset', hends,
      (breakpoints_transparent hload (.of_none rfl rfl) hset []).1 12 hnever,
      (breakpoints_transparent hload (.of_none rfl rfl) hset' []).2 2 hbefore hlook hplain⟩
  · cases hcheck

/-- So a breakpoint alone can make a call fail: the one on that capture does. -/
theorem breakpoint_hides_capture :
    ∃ entry w₀ w₁, World.loadBytes {} closingModule none {} = .ok (entry, w₀) ∧
      ({} : Settings).hooks.Transparent ∧ w₀.setBreakpoints entry.vm [(1, 2)] = .ok w₁ ∧
      (w₀.call 12 (.function entry.main) []).map Prod.snd = some (.ok [.number (Number.ofNat 7)]) ∧
      (w₁.call 12 (.function entry.main) []).map Prod.snd =
        some (.error (.script (.string (.ofString
          "(main):pc 1 (NEWCLOSURE): expected CAPTURE 1 of 1 for closure (??)")) true)) := by
  have hcheck : (World.loadBytes {} closingModule none {}).toOption.any (fun loaded =>
      (loaded.2.setBreakpoints loaded.1.vm [(1, 2)]).toOption.any fun w₁ =>
        decide ((loaded.2.call 12 (.function loaded.1.main) []).map Prod.snd =
          some (.ok [.number (Number.ofNat 7)])) &&
        decide ((w₁.call 12 (.function loaded.1.main) []).map Prod.snd =
          some (.error (.script (.string (.ofString
            "(main):pc 1 (NEWCLOSURE): expected CAPTURE 1 of 1 for closure (??)")) true)))) =
      true := by
    decide +kernel
  obtain ⟨entry, w₀, hload, hcheck⟩ := World.exists_of_loadBytes hcheck
  dsimp only at hcheck
  rcases hset : w₀.setBreakpoints entry.vm [(1, 2)] with missing | w₁ <;> rw [hset] at hcheck
  · cases hcheck
  · obtain ⟨hplain, hpatched⟩ := Bool.and_eq_true_iff.1 hcheck
    exact ⟨entry, w₀, w₁, hload, .of_none rfl rfl, hset, of_decide_eq_true hplain,
      of_decide_eq_true hpatched⟩

end ScriptMachine
