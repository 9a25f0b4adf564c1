import Mathlib
import ScriptMachine.Proofs.Machine.Keeping

/-!
# Registers of a frame

What a register holds after values have been stored in others, or the register file has grown.
-/

namespace ScriptMachine

@[simp] theorem length_fitTo (count : Nat) (values : List Value) :
    (fitTo count values).length = count := by
  simp [fitTo]
  omega

theorem fitTo_cons (count : Nat) (value : Value) (values : List Value) :
    fitTo (count + 1) (value :: values) = value :: fitTo count values := by
  simp [fitTo]

namespace Frame

variable {f g : Frame} {slot first size limit : Nat} {value : Value} {values : List Value}

@[simp] theorem size_put : (f.put slot value).registers.size = f.registers.size := by simp [put]

@[simp] theorem size_putAll : (f.putAll first values).registers.size = f.registers.size := by
  induction values generalizing f first with
  | nil => rfl
  | cons value values ih =>
    rw [putAll, ih, size_put]

@[simp] theorem iterators_putAll : (f.putAll first values).iterators = f.iterators := by
  induction values generalizing f first with
  | nil => rfl
  | cons value values ih => exact ih

theorem register_put (f : Frame) (slot k : Nat) (value : Value) : (f.put slot value).register k =
    if slot = k ∧ slot < f.registers.size then value else f.register k := by
  simp only [Scope.register, put, Array.getD_eq_getD_getElem?, Array.getElem?_setIfInBounds]
  by_cases hk : slot = k
  · subst hk
    by_cases hlt : slot < f.registers.size
    · simp [hlt]
    · simp [hlt]
  · simp [hk]

theorem register_put_of_ne {k : Nat} (h : slot ≠ k) :
    (f.put slot value).register k = f.register k := by
  rw [register_put, if_neg fun hk => h hk.1]

/-- Registers below the first one that is stored in are not changed. -/
theorem register_putAll_of_lt {k : Nat} (h : k < first) :
    (f.putAll first values).register k = f.register k := by
  induction values generalizing f first with
  | nil => rfl
  | cons value values ih =>
    rw [putAll, ih (Nat.lt_succ_of_lt h), register_put_of_ne h.ne']

/-- So are those behind the last one. -/
theorem register_putAll_of_le {k : Nat} (h : first + values.length ≤ k) :
    (f.putAll first values).register k = f.register k := by
  induction values generalizing f first with
  | nil => rfl
  | cons value values ih =>
    rw [List.length_cons] at h
    rw [putAll, ih (by omega), register_put_of_ne (by omega)]

@[simp] theorem top_putAll : (f.putAll first values).top = f.top := by
  induction values generalizing f first with
  | nil => rfl
  | cons value values ih => exact ih

/-- Values that fit into the register file can be read back. -/
theorem slice_putAll (h : first + values.length ≤ f.registers.size) :
    (f.putAll first values).slice first values.length = values := by
  induction values generalizing f first with
  | nil => rfl
  | cons value values ih =>
    rw [List.length_cons] at h
    have hfirst : ((f.put first value).putAll (first + 1) values).register first = value := by
      rw [register_putAll_of_lt (Nat.lt_succ_self first), register_put,
        if_pos ⟨rfl, by omega⟩]
    have hroom : first + 1 + values.length ≤ (f.put first value).registers.size := by
      rw [size_put]
      omega
    rw [putAll, slice, List.length_cons, List.range_succ_eq_map, List.map_cons, List.map_map]
    refine congrArg₂ List.cons hfirst (Eq.trans ?_ (ih hroom))
    refine List.map_congr_left fun i _ => ?_
    simp only [Function.comp_apply, Nat.succ_eq_add_one]
    congr 1
    omega

/-- The first of some values that fit into the register file. -/
theorem register_putAll_first (h : first < f.registers.size) :
    (f.putAll first (value :: values)).register first = value := by
  rw [putAll, register_putAll_of_lt (Nat.lt_succ_self first), register_put, if_pos ⟨rfl, h⟩]

/-- A register file that grows keeps what it holds, and has room. -/
theorem ensure?_spec (h : f.ensure? size limit = some g) :
    g = { f with registers := g.registers } ∧ size ≤ g.registers.size ∧
      ∀ k, g.register k = f.register k := by
  unfold ensure? at h
  split at h
  · cases h
    exact ⟨rfl, ‹_›, fun _ => rfl⟩
  · split at h
    · cases h
    · cases h
      refine ⟨rfl, ?_, fun k => ?_⟩
      · simp only [Array.size_append, Array.size_replicate]
        omega
      · simp only [Scope.register, Array.getD_eq_getD_getElem?, Array.getElem?_append,
          Array.getElem?_replicate]
        by_cases hk : k < f.registers.size
        · simp [hk]
        · rw [if_neg hk, Array.getElem?_eq_none (Nat.le_of_not_lt hk)]
          split <;> rfl

/-- A frame is the same but for registers that have been added and hold nil. -/
structure Grown (f g : Frame) : Prop where
  /-- Only registers differ. -/
  frame : g = { f with registers := g.registers }
  /-- None is lost. -/
  size_le : f.registers.size ≤ g.registers.size
  /-- A register holds what it held, or nil when it is new. -/
  register : ∀ slot, g.register slot = f.register slot

theorem Grown.sameCall (h : f.Grown g) : f.SameCall g := by
  rw [h.frame]
  exact ⟨rfl, rfl, rfl, rfl, rfl, rfl, rfl⟩

theorem Grown.pc (h : f.Grown g) : g.pc = f.pc := by rw [h.frame]

theorem Grown.top (h : f.Grown g) : g.top = f.top := by rw [h.frame]

theorem grown_ensure? (h : f.ensure? size limit = some g) : f.Grown g := by
  obtain ⟨hframe, -, hregister⟩ := ensure?_spec h
  refine ⟨hframe, ?_, hregister⟩
  unfold ensure? at h
  split at h
  · cases h
    exact le_rfl
  · split at h
    · cases h
    · cases h
      simp

/-- Whether there is room depends on the size of the register file alone. -/
theorem ensure?_isSome (f : Frame) (size limit : Nat) :
    (f.ensure? size limit).isSome = (size ≤ f.registers.size || size ≤ limit) := by
  unfold ensure?
  by_cases hsize : size ≤ f.registers.size
  · simp [hsize]
  · by_cases hlimit : limit < size
    · simp [hsize, hlimit]
    · simp [hsize, hlimit, Nat.le_of_not_lt hlimit]

end Frame

end ScriptMachine
