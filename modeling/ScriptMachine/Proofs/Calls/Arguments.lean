import Mathlib
import ScriptMachine.Proofs.Bytecode.Counts
import ScriptMachine.Proofs.Machine.Registers

/-!
# Arguments of a call

A call begins with its arguments in its first registers, as many of them as there are parameters.
A prototype declares both counts, of registers and of parameters: there is room for the arguments of
every call exactly when there are not more parameters than registers.  Loading does not ask for
that.
-/

namespace ScriptMachine

/-! ## Counts -/

namespace Prototype

/-- Count of the registers that a call of the prototype begins with. -/
def registerCount (p : Prototype) : Nat := max p.maxStackSize.toNat 1

/-- Count of the arguments that are meant for parameters. -/
def fixedCount (p : Prototype) (args : List Value) : Nat := min p.numParams.toNat args.length

/-- There is room for the arguments of all calls if there is for those of a call with as many as
there are parameters. -/
theorem forall_fixedCount_le {p : Prototype} :
    (∀ args, p.fixedCount args ≤ p.registerCount) ↔ p.numParams.toNat ≤ p.registerCount := by
  refine ⟨fun h => ?_, fun h args => (min_le_left _ _).trans h⟩
  have hall := h (List.replicate p.numParams.toNat .nil)
  rwa [fixedCount, List.length_replicate, min_self] at hall

end Prototype

/-! ## Entry -/

theorem getElem?_fitTo {count j : Nat} {values : List Value} (hcount : j < count)
    (hlength : j < values.length) : (fitTo count values)[j]? = values[j]? := by
  rw [fitTo, List.getElem?_append_left (by simp [hcount, hlength]),
    List.getElem?_take_of_lt hcount]

namespace Frame

variable (id : FrameId) (p : Prototype) (c : Closure) (args : List Value)

theorem size_enter : (enter id p c args).registers.size = p.registerCount := by
  rw [enter, initialRegisters, List.size_toArray, length_fitTo, Prototype.registerCount]

theorem getElem?_enter {i : Nat} (hi : i < p.fixedCount args) (hroom : i < p.registerCount) :
    (enter id p c args).registers[i]? = args[i]? := by
  obtain ⟨hparams, hargs⟩ := lt_min_iff.1 hi
  have hlength : i < (args.take p.numParams.toNat).length := by simp [hparams, hargs]
  rw [enter, initialRegisters, List.getElem?_toArray, ← Prototype.registerCount,
    getElem?_fitTo hroom hlength, List.getElem?_take_of_lt hparams]

/-- The arguments that are meant for parameters are all in registers exactly when there are as many
of these. -/
theorem enter_fits_iff :
    (∀ i < p.fixedCount args, (enter id p c args).registers[i]? = args[i]?) ↔
      p.fixedCount args ≤ p.registerCount := by
  refine ⟨fun h => ?_, fun h i hi => getElem?_enter id p c args hi (hi.trans_le h)⟩
  -- Otherwise the first argument behind the registers is in none of them.
  by_contra hroom
  rw [Nat.not_le] at hroom
  have hlost := h p.registerCount hroom
  rw [Array.getElem?_eq_none (size_enter id p c args).le,
    List.getElem?_eq_getElem (hroom.trans_le (min_le_right _ _))] at hlost
  cases hlost

end Frame

/-- The arguments of a call fit exactly when the module declares enough registers for them, and
modules need not.  For every module that is accepted, the arguments that are meant for parameters
are in registers of the new frame if and only if there are not more of them than registers, which is
so for all calls of a prototype if and only if it does not declare more parameters than registers;
and whatever module is accepted, it is also accepted with any other two counts for any prototype. -/
theorem LoadOptions.arguments_fit_iff {options : LoadOptions} {bytes : Bytes} {heap heap' : Heap}
    {m : Module} (h : options.load bytes heap = .ok (m, heap')) :
    (∀ p ∈ m.prototypes, ∀ id c args, let f := Frame.enter id p c args
      f.registers.size = p.registerCount ∧
        ((∀ i < p.fixedCount args, f.registers[i]? = args[i]?) ↔
          p.fixedCount args ≤ p.registerCount)) ∧
    (∀ p ∈ m.prototypes, (∀ args, p.fixedCount args ≤ p.registerCount) ↔
      p.numParams.toNat ≤ p.registerCount) ∧
    ∀ k registers params, ∃ bytes', bytes'.length = bytes.length ∧
      options.load bytes' heap = .ok (m.withCounts k registers params, heap') :=
  ⟨fun p _ id c args => ⟨Frame.size_enter id p c args, Frame.enter_fits_iff id p c args⟩,
    fun _ _ => Prototype.forall_fixedCount_le, load_withCounts h⟩

/-- A module with one register and two parameters, which returns nothing. -/
def narrowModule : Bytes :=
  [6, 1, 0, 1, 1, 2, 0, 0, 0, 0, 1, 0x16, 0, 1, 0, 0, 0, 0, 0, 0, 0, 0]

/-- It is accepted. -/
theorem LoadOptions.load_narrowModule :
    ∃ m heap, load {} narrowModule {} = .ok (m, heap) ∧
      ∃ p ∈ m.prototypes, p.numParams = 2 ∧ p.maxStackSize = 1 := by
  have hcheck : (load {} narrowModule {}).toOption.any (fun loaded =>
      loaded.1.prototypes[0]?.any fun p =>
        decide (p.numParams = 2) && decide (p.maxStackSize = 1)) = true := by
    decide +kernel
  rcases hload : load {} narrowModule {} with e | ⟨m, heap⟩
  · rw [hload] at hcheck
    cases hcheck
  · rw [hload] at hcheck
    simp only [Except.toOption, Option.any_some] at hcheck
    obtain ⟨p, hp, hcounts⟩ := (Option.any_eq_true _ _).1 hcheck
    simp only [Bool.and_eq_true, decide_eq_true_eq] at hcounts
    exact ⟨m, heap, rfl, p, Array.mem_of_getElem? hp, hcounts.1, hcounts.2⟩

/-- One of two arguments gets no register.  The module is accepted with its two counts exchanged as
well, and then there is room for both. -/
theorem LoadOptions.arguments_fit_iff_narrowModule :
    ∃ m heap, load {} narrowModule {} = .ok (m, heap) ∧
      (∃ bytes, load {} bytes {} = .ok (m.withCounts 0 2 1, heap)) ∧
      ∃ p ∈ m.prototypes, ∀ id c, ¬ ∀ i < p.fixedCount [.nil, .nil],
        (Frame.enter id p c [.nil, .nil]).registers[i]? = [Value.nil, .nil][i]? := by
  obtain ⟨m, heap, hload, p, hp, hparams, hregisters⟩ := load_narrowModule
  obtain ⟨hfits, -, hcounts⟩ := arguments_fit_iff hload
  obtain ⟨bytes, -, hother⟩ := hcounts 0 2 1
  refine ⟨m, heap, hload, ⟨bytes, hother⟩, p, hp, fun id c hall => ?_⟩
  have hle := (hfits p hp id c [.nil, .nil]).2.1 hall
  rw [Prototype.fixedCount, Prototype.registerCount, hparams, hregisters] at hle
  exact absurd hle (by decide)

/-- So there are calls whose arguments do not fit. -/
theorem LoadOptions.arguments_beyond_registers :
    ∃ bytes m heap, load {} bytes {} = .ok (m, heap) ∧
      ∃ p ∈ m.prototypes, ∃ args, p.registerCount < p.fixedCount args := by
  obtain ⟨m, heap, hload, p, hp, hparams, hregisters⟩ := load_narrowModule
  refine ⟨narrowModule, m, heap, hload, p, hp, [.nil, .nil], ?_⟩
  rw [Prototype.fixedCount, Prototype.registerCount, hparams, hregisters]
  decide

end ScriptMachine
