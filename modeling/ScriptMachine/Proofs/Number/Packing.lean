import Mathlib
import ScriptMachine.Table.Key

/-!
# Numbers and their bits

A number is its bits, and these are its sign, its exponent and its mantissa, for doubles and for
singles.  Equality of numbers is equality of bits up to the two zeros, which is what the keys of a
table are built on.
-/

namespace ScriptMachine.Number

open Float.Model (Format UnpackedFloat)
open Float.Model.UnpackedFloat

/-! ## Numbers and their parts -/

/-- A double is determined by its sign, its mantissa and its exponent. -/
theorem parts_injective {x y : Float} (h : parts x = parts y) : x = y := by
  have hbits := (unpack_inj_of_valid x.toModel.valid y.toModel.valid).1 h
  exact Float.toBits_inj.1 (UInt64.toBitVec_inj.1 hbits)

/-- A single is determined by its sign, its mantissa and its exponent. -/
theorem parts_injective32 {x y : Float32} (h : x.toModel.unpack = y.toModel.unpack) : x = y := by
  have hbits := (unpack_inj_of_valid x.toModel.valid y.toModel.valid).1 h
  exact Float32.toBits_inj.1 (UInt32.toBitVec_inj.1 hbits)

/-! ## Equality -/

theorem compare_sign_self (s : Sign) : compare s s = .eq := by
  cases s <;> rfl

/-- Unpacked numbers compare equal when they are the same number or both a zero, and no NaN. -/
theorem beq_unpacked_iff (a b : UnpackedFloat) :
    a.beq b = true ↔
      a ≠ .notANumber ∧ (a = b ∨ (∃ s, a = .zero s) ∧ ∃ s, b = .zero s) := by
  rcases a with (_ | _) | _ | (_ | _) | ⟨_ | _, m, e, hm⟩ <;>
  rcases b with (_ | _) | _ | (_ | _) | ⟨_ | _, m', e', hm'⟩ <;>
  simp [UnpackedFloat.beq, UnpackedFloat.compare, compare_sign_self, Ordering.then_eq_eq, and_comm]

theorem beq_zero_iff (a : UnpackedFloat) : a.beq (.zero .positive) = true ↔ ∃ s, a = .zero s := by
  rw [beq_unpacked_iff]
  constructor
  · rintro ⟨-, rfl | ⟨h, -⟩⟩
    · exact ⟨_, rfl⟩
    · exact h
  · rintro ⟨s, rfl⟩
    exact ⟨by simp, .inr ⟨⟨s, rfl⟩, _, rfl⟩⟩

section Standing

variable {α W : Type} (unpacked : α → UnpackedFloat) (bits : α → W) (zero : α)

/-- What stands for a number when it is compared: its bits, those of one zero for both zeros, and
nothing for a NaN. -/
def standing? (x : α) : Option W :=
  if (unpacked x).isNaN then none
  else if (unpacked x).beq (unpacked zero) then some (bits zero) else some (bits x)

variable {unpacked bits zero}

theorem standing?_eq_none {x : α} (h : unpacked x = .notANumber) :
    standing? unpacked bits zero x = none := by
  rw [standing?, if_pos (isNaN_iff.2 h)]

theorem standing?_zero {x : α} {s : Sign} (hzero : unpacked zero = .zero .positive)
    (h : unpacked x = .zero s) : standing? unpacked bits zero x = some (bits zero) := by
  rw [standing?, if_neg (by simp [h, UnpackedFloat.isNaN]),
    if_pos (by rw [hzero, beq_zero_iff]; exact ⟨s, h⟩)]

theorem standing?_other {x : α} (hzero : unpacked zero = .zero .positive)
    (hnan : unpacked x ≠ .notANumber) (h : ¬ ∃ s, unpacked x = .zero s) :
    standing? unpacked bits zero x = some (bits x) := by
  rw [standing?, if_neg (by rwa [isNaN_iff]), if_neg (by rwa [hzero, beq_zero_iff])]

/-- Two numbers are equal exactly when the same bits stand for both. -/
theorem beq_iff_standing? (hunpacked : Function.Injective unpacked)
    (hbits : Function.Injective bits) (hzero : unpacked zero = .zero .positive) (x y : α) :
    (unpacked x).beq (unpacked y) = true ↔
      ∃ k, standing? unpacked bits zero x = some k ∧ standing? unpacked bits zero y = some k := by
  have hne : ∀ z, (¬ ∃ s, unpacked z = .zero s) → bits z ≠ bits zero := fun z hz h =>
    hz ⟨_, (hbits h) ▸ hzero⟩
  rw [beq_unpacked_iff]
  by_cases hx : unpacked x = .notANumber
  · simp [hx, standing?_eq_none hx]
  by_cases hy : unpacked y = .notANumber
  · rw [standing?_eq_none hy]
    simp [hx, hy]
  by_cases hxz : ∃ s, unpacked x = .zero s <;> by_cases hyz : ∃ s, unpacked y = .zero s
  · obtain ⟨s, hs⟩ := hxz
    obtain ⟨s', hs'⟩ := hyz
    simp [hs, hs', standing?_zero hzero hs, standing?_zero hzero hs']
  · obtain ⟨s, hs⟩ := hxz
    have hxy : unpacked x ≠ unpacked y := fun h => hyz ⟨s, h ▸ hs⟩
    simpa [standing?_zero hzero hs, standing?_other hzero hy hyz, hxy, hyz] using hne y hyz
  · obtain ⟨s, hs⟩ := hyz
    have hxy : unpacked x ≠ unpacked y := fun h => hxz ⟨s, h ▸ hs⟩
    simpa [standing?_zero hzero hs, standing?_other hzero hx hxz, hxy, hxz] using (hne x hxz).symm
  · simp only [standing?_other hzero hx hxz, standing?_other hzero hy hyz, hxz, hyz, hx, ne_eq,
      not_false_eq_true, true_and, and_self, or_false, Option.some.injEq]
    constructor
    · intro h
      exact ⟨_, congrArg bits (hunpacked h), rfl⟩
    · rintro ⟨k, rfl, h⟩
      rw [hbits h]

end Standing

/-- Two doubles are equal exactly when the same bits stand for both. -/
theorem beq_iff_bits? (x y : Float) :
    (x == y) = true ↔ ∃ k, Key.bits? x = some k ∧ Key.bits? y = some k := by
  have hbits : Function.Injective Float.toBits := fun _ _ h => Float.toBits_inj.1 h
  have hunpacked : Function.Injective parts := fun _ _ h => parts_injective h
  have hzero : parts 0 = .zero .positive := rfl
  exact beq_iff_standing? hunpacked hbits hzero x y

/-- Two singles are equal exactly when the same bits stand for both. -/
theorem beq_iff_bits32? (x y : Float32) :
    (x == y) = true ↔ ∃ k, Key.bits32? x = some k ∧ Key.bits32? y = some k := by
  have hbits : Function.Injective Float32.toBits := fun _ _ h => Float32.toBits_inj.1 h
  have hunpacked : Function.Injective fun z : Float32 => z.toModel.unpack :=
    fun _ _ h => parts_injective32 h
  have hzero : (fun z : Float32 => z.toModel.unpack) 0 = .zero .positive := rfl
  exact beq_iff_standing? hunpacked hbits hzero x y

end ScriptMachine.Number
