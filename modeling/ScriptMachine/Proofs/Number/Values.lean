import ScriptMachine.Proofs.Number.Integers

/-!
# Numbers as rationals

A finite number is a rational.  Numbers are in the order of their rationals, and a sum is exact when
it comes to an integer that is a number, as all of them up to 2^53 are, however the mantissas of its
operands have to be shifted.
-/

namespace ScriptMachine.Number

open Float.Model (Format UnpackedFloat)
open Float.Model.UnpackedFloat

/-! ## Values -/

/-- The rational that an unpacked number is, if it is finite. -/
def rational? : UnpackedFloat → Option ℚ
  | .zero _ => some 0
  | .finite s m e _ => some (s.apply m * 2 ^ e)
  | _ => none

/-- A mantissa with a lower exponent is a mantissa with a higher one, shifted. -/
theorem eq_shift {a b : Nat} {i j : Int} (hij : i ≤ j) (h : (a : ℚ) * 2 ^ i = b * 2 ^ j) :
    a = b * 2 ^ (j - i).toNat := by
  obtain ⟨k, rfl⟩ : ∃ k : Nat, j = i + k := ⟨(j - i).toNat, by omega⟩
  have hne : (2 : ℚ) ^ i ≠ 0 := by positivity
  rw [zpow_add₀ two_ne_zero, zpow_natCast, mul_comm ((2 : ℚ) ^ i), ← mul_assoc] at h
  rw [show (i + k - i).toNat = k by omega]
  exact_mod_cast mul_right_cancel₀ hne h

/-- The integer that a number is is its rational. -/
theorem integer?_eq_some_iff {x : Float} {n : Int} :
    integer? x = some n ↔ rational? (parts x) = some (n : ℚ) := by
  unfold integer? rational?
  rcases parts x with s | _ | s | ⟨s, m, e, hm⟩
  · simp
  · simp
  · simp [eq_comm]
  · dsimp only
    rw [Option.some.injEq]
    split
    · obtain ⟨k, rfl⟩ : ∃ k : Nat, e = k := ⟨e.toNat, by omega⟩
      rw [Option.some.injEq, zpow_natCast, ← Int.cast_inj (α := ℚ)]
      cases s <;> simp [Sign.apply]
    · obtain ⟨k, rfl⟩ : ∃ k : Nat, e = -(k : Int) := ⟨(-e).toNat, by omega⟩
      have hscaled : (s.apply m : ℚ) * 2 ^ (-(k : Int)) = n ↔ s.apply m = n * 2 ^ k := by
        rw [zpow_neg, zpow_natCast, ← div_eq_mul_inv, div_eq_iff (by positivity)]
        exact_mod_cast Iff.rfl
      rw [hscaled, neg_neg, Int.toNat_natCast]
      split
      · rename_i hdvd
        obtain ⟨q, rfl⟩ := Nat.dvd_of_mod_eq_zero hdvd
        have hq : ((2 ^ k * q : Nat) : Int) / (2 ^ k : Nat) = q := by
          rw [← Int.natCast_div, Nat.mul_div_cancel_left q (Nat.two_pow_pos k)]
        have hne : (2 : Int) ^ k ≠ 0 := by positivity
        rw [hq, Option.some.injEq, ← mul_left_inj' hne]
        cases s <;> simp [Sign.apply, mul_comm]
      · rename_i hdvd
        refine iff_of_false (by simp) fun h => hdvd (Nat.mod_eq_zero_of_dvd ?_)
        have hdvd' : (2 : Int) ^ k ∣ s.apply m := Dvd.intro_left n h.symm
        cases s <;> simp only [Sign.apply, dvd_neg] at hdvd' <;> exact_mod_cast hdvd'

/-! ## Order -/

/-- A mantissa with the leading bit is above all mantissas with lower exponents. -/
theorem scaled_lt {m m' : Nat} {e e' : Int} (hm : m < 2 ^ 53) (hm' : 2 ^ 52 ≤ m') (h : e < e') :
    (m : ℚ) * 2 ^ e < m' * 2 ^ e' := by
  calc (m : ℚ) * 2 ^ e < 2 ^ 53 * 2 ^ e := by gcongr; exact_mod_cast hm
    _ = 2 ^ 52 * 2 ^ (e + 1) := by rw [zpow_add₀ two_ne_zero]; ring
    _ ≤ m' * 2 ^ e' := by
      gcongr
      · exact_mod_cast hm'
      · norm_num
      · omega

/-- Mantissas are as wide as they can be, so that they are in order once exponents are. -/
theorem compare_parts {x y : Float} {s s' : Sign} {m m' : Nat} {e e' : Int} {hm : 0 < m}
    {hm' : 0 < m'} (hx : parts x = .finite s m e hm) (hy : parts y = .finite s' m' e' hm') :
    (compare e e').then (compare m m') = compare ((m : ℚ) * 2 ^ e) (m' * 2 ^ e') := by
  have hm₁ := parts_finite_shape hx
  have hm₂ := parts_finite_shape hy
  rcases lt_trichotomy e e' with hlt | rfl | hgt
  · -- A mantissa without the leading bit would have the least exponent.
    rw [compare_lt_iff_lt.2 hlt, compare_lt_iff_lt.2 (scaled_lt (by omega) (by omega) hlt)]
    rfl
  · have hpos : (0 : ℚ) < 2 ^ e := by positivity
    rw [compare_eq_iff_eq.2 rfl, ← cmp_eq_compare (α := ℚ), cmp_mul_pos_right hpos,
      Nat.strictMono_cast.cmp_map_eq, cmp_eq_compare]
    rfl
  · rw [compare_gt_iff_gt.2 hgt, compare_gt_iff_gt.2 (scaled_lt (by omega) (by omega) hgt)]
    rfl

/-- Numbers are in the order of their rationals. -/
theorem compare_rational? {x y : Float} {a b : ℚ} (hx : rational? (parts x) = some a)
    (hy : rational? (parts y) = some b) : (parts x).compare (parts y) = some (compare a b) := by
  have hpos : ∀ {m : Nat} (e : Int), 0 < m → (0 : ℚ) < m * 2 ^ e := fun e hm => by positivity
  rcases hxp : parts x with _ | _ | _ | ⟨_ | _, m, e, hm⟩ <;>
  rcases hyp : parts y with _ | _ | _ | ⟨_ | _, m', e', hm'⟩ <;>
  simp only [hxp, hyp, rational?, Sign.apply, reduceCtorEq, Option.some.injEq, Int.cast_neg,
    Int.cast_natCast, neg_mul] at hx hy <;> subst hx hy <;>
  simp only [UnpackedFloat.compare, Option.some.injEq]
  · exact (compare_eq_iff_eq.2 rfl).symm
  · exact (compare_gt_iff_gt.2 (neg_lt_zero.2 (hpos e' hm'))).symm
  · exact (compare_lt_iff_lt.2 (hpos e' hm')).symm
  · exact (compare_lt_iff_lt.2 (neg_lt_zero.2 (hpos e hm))).symm
  · have hneg : StrictAnti fun q : ℚ => -q := fun _ _ => neg_lt_neg
    rw [compare_parts hxp hyp, ← cmp_eq_compare, ← cmp_eq_compare, cmp_swap]
    exact (hneg.cmp_map_eq _ _).symm
  · exact (compare_lt_iff_lt.2 ((neg_lt_zero.2 (hpos e hm)).trans (hpos e' hm'))).symm
  · exact (compare_gt_iff_gt.2 (hpos e hm)).symm
  · exact (compare_gt_iff_gt.2 ((neg_lt_zero.2 (hpos e' hm')).trans (hpos e hm))).symm
  · exact compare_parts hxp hyp

section Integers

variable {x y : Float} {a b : Int} (hx : integer? x = some a) (hy : integer? y = some b)

include hx hy

theorem compare_integer? : (parts x).compare (parts y) = some (compare a b) := by
  rw [compare_rational? (integer?_eq_some_iff.1 hx) (integer?_eq_some_iff.1 hy),
    ← cmp_eq_compare, Int.cast_strictMono.cmp_map_eq, cmp_eq_compare]

/-- Integers that are numbers are in their order. -/
theorem le_iff_of_integer? : x ≤ y ↔ a ≤ b := by
  have hle : x ≤ y ↔ (parts x).le (parts y) = true := decide_eq_true_iff
  rw [hle, UnpackedFloat.le, compare_integer? hx hy, ← compare_le_iff_le]
  simp [Ordering.isLE_iff_ne_gt]

theorem lt_iff_of_integer? : x < y ↔ a < b := by
  have hlt : x < y ↔ (parts x).lt (parts y) = true := decide_eq_true_iff
  rw [hlt, UnpackedFloat.lt, compare_integer? hx hy, ← compare_lt_iff_lt]
  simp

end Integers

/-! ## Exact sums -/

/-- What is a mantissa of full width, however it is shifted, is not rounded. -/
theorem round_normal {m M : Nat} {e i : Int} (hm : 0 < m) (hlo : 2 ^ 52 ≤ m) (hhi : m < 2 ^ 53)
    (he : -1074 ≤ e) (s : Sign) (h : (M : ℚ) * 2 ^ i = m * 2 ^ e) :
    UnpackedFloat.round .binary64 s M i = .finite s m e hm := by
  have hlog : (M.log2 : Int) + i = 52 + e := by
    rcases le_total i e with hie | hei
    · rw [eq_shift hie h, log2_normal hlo hhi]
      omega
    · have hshift := eq_shift hei h.symm
      have hpos : 0 < M := Nat.pos_of_ne_zero fun hM => by rw [hM] at hshift; omega
      have hlog := log2_normal hlo hhi 0
      rw [pow_zero, mul_one, hshift, log2_mul_two_pow hpos] at hlog
      omega
  have htarget : Format.binary64.targetExponent (Float.Model.totalExponent M i) = e := by
    simp only [Format.targetExponent, Float.Model.totalExponent, Format.mantissaBits,
      Format.minExponent]
    omega
  rw [UnpackedFloat.round, htarget]
  unfold decreaseExponent
  dsimp only
  rw [Nat.shiftLeft_eq]
  rcases le_total i e with hie | hei
  · obtain ⟨k, rfl⟩ : ∃ k : Nat, i = e - k := ⟨(e - i).toNat, by omega⟩
    rw [show (e - k - e).toNat = 0 by omega, eq_shift hie h]
    simpa using roundWithAccuracy_normal hlo hhi he s k
  · rw [← eq_shift hei h.symm]
    have hexp : i - ((i - e).toNat : Int) = e := by omega
    rw [hexp]
    simpa using roundWithAccuracy_normal hlo hhi he s 0

/-- A natural number that is a number: zero, or a mantissa of full width with its exponent. -/
def Representable (n : Nat) : Prop :=
  n = 0 ∨ ∃ m : Nat, ∃ e : Int,
    2 ^ 52 ≤ m ∧ m < 2 ^ 53 ∧ -1074 ≤ e ∧ e ≤ 971 ∧ (m : ℚ) * 2 ^ e = n

theorem representable_of_le {n : Nat} (hn : n ≤ 2 ^ 53) : Representable n := by
  rcases Nat.eq_zero_or_pos n with hzero | hpos
  · exact .inl hzero
  right
  rcases Nat.lt_or_eq_of_le hn with hlt | rfl
  · obtain ⟨hlog, hlo, hhi⟩ := shifted_normal hpos hlt
    refine ⟨_, -((52 - n.log2 : Nat) : Int), hlo, hhi, by omega, by omega, ?_⟩
    rw [Nat.cast_mul, Nat.cast_pow, Nat.cast_ofNat, zpow_neg, zpow_natCast]
    exact mul_inv_cancel_right₀ (by positivity) _
  · exact ⟨2 ^ 52, 1, by norm_num⟩

theorem rational?_round {M n : Nat} {i : Int} (hpos : 0 < n) (hn : Representable n) (s : Sign)
    (h : (M : ℚ) * 2 ^ i = n) :
    rational? (unpack .binary64 (pack .binary64 (UnpackedFloat.round .binary64 s M i))) =
      some (s.apply n : ℚ) := by
  obtain ⟨m, e, hlo, hhi, he, he', hm⟩ := hn.resolve_left hpos.ne'
  rw [round_normal (by omega) hlo hhi he s (h.trans hm.symm), unpack_pack_normal hlo hhi he he',
    rational?]
  cases s <;> simp [Sign.apply, hm]

/-- What comes to an integer that is a number is not rounded. -/
theorem rational?_normalize {M n : Int} {i : Int} (hn : Representable n.natAbs)
    (h : (M : ℚ) * 2 ^ i = n) (s : Sign) :
    rational? (unpack .binary64 (pack .binary64 (UnpackedFloat.normalize .binary64 M i s))) =
      some (n : ℚ) := by
  have hscale : (0 : ℚ) < 2 ^ i := by positivity
  have hmagnitude : (M.natAbs : ℚ) * 2 ^ i = n.natAbs := by
    rw [Nat.cast_natAbs, Nat.cast_natAbs, Int.cast_abs, Int.cast_abs, ← h, abs_mul,
      abs_of_pos hscale]
  rw [UnpackedFloat.normalize]
  rcases lt_trichotomy M 0 with hM | rfl | hM
  · have hneg : n < 0 := by
      have : (n : ℚ) < 0 := h ▸ mul_neg_of_neg_of_pos (by exact_mod_cast hM) hscale
      exact_mod_cast this
    rw [compare_lt_iff_lt.2 hM]
    dsimp only
    rw [show (-M).toNat = M.natAbs by omega, rational?_round (by omega) hn _ hmagnitude]
    simp only [Sign.apply, Option.some.injEq, Int.cast_inj]
    omega
  · have hzero : n = 0 := by simpa using h.symm
    subst hzero
    rw [compare_eq_iff_eq.2 rfl, Int.cast_zero]
    dsimp only
    rw [unpack_pack_zero]
    rfl
  · have hpos : 0 < n := by
      have : (0 : ℚ) < n := h ▸ mul_pos (by exact_mod_cast hM) hscale
      exact_mod_cast this
    rw [compare_gt_iff_gt.2 hM]
    dsimp only
    rw [show M.toNat = M.natAbs by omega, rational?_round (by omega) hn _ hmagnitude]
    simp only [Sign.apply, Option.some.injEq, Int.cast_inj]
    omega

/-- A mantissa is shifted to a lower exponent without loss. -/
theorem decreaseExponent_value (s : Sign) (m : Nat) {e i : Int} (h : i ≤ e) :
    (s.apply (decreaseExponent m e i).1 : ℚ) * 2 ^ i = s.apply m * 2 ^ e := by
  obtain ⟨k, rfl⟩ : ∃ k : Nat, e = i + k := ⟨(e - i).toNat, by omega⟩
  unfold decreaseExponent
  dsimp only
  rw [show (i + k - i).toNat = k by omega, Nat.shiftLeft_eq, zpow_add₀ two_ne_zero, zpow_natCast]
  cases s <;> simp only [Sign.apply] <;> push_cast <;> ring

/-- A sum that comes to an integer that is a number is that integer. -/
theorem integer?_add_of_representable {x y : Float} {a b : Int} (hx : integer? x = some a)
    (hy : integer? y = some b) (hsum : Representable (a + b).natAbs) :
    integer? (x + y) = some (a + b) := by
  rw [integer?_eq_some_iff] at hx hy ⊢
  change rational? (unpack .binary64 (pack .binary64
    (UnpackedFloat.add .binary64 (parts x) (parts y)))) = _
  have hxx := unpack_pack_parts x
  have hyy := unpack_pack_parts y
  rcases hxp : parts x with _ | _ | s | ⟨s, m, e, hm⟩ <;>
  rcases hyp : parts y with _ | _ | s' | ⟨s', m', e', hm'⟩ <;>
  rw [hxp] at hx hxx <;> rw [hyp] at hy hyy <;> try contradiction
  · have ha : a = 0 := by exact_mod_cast (Option.some.inj hx).symm
    have hb : b = 0 := by exact_mod_cast (Option.some.inj hy).symm
    rw [UnpackedFloat.add, ha, hb]
    split <;> rw [unpack_pack_zero] <;> simp [rational?]
  · have ha : a = 0 := by exact_mod_cast (Option.some.inj hx).symm
    rw [UnpackedFloat.add, hyy, hy, ha, zero_add] <;> simp
  · have hb : b = 0 := by exact_mod_cast (Option.some.inj hy).symm
    rw [UnpackedFloat.add, hxx, hx, hb, add_zero] <;> simp
  · have hvalue : ((s.apply (decreaseExponent m e (min e e')).1 +
        s'.apply (decreaseExponent m' e' (min e e')).1 : Int) : ℚ) * 2 ^ min e e' =
          ((a + b : Int) : ℚ) := by
      push_cast
      rw [add_mul, decreaseExponent_value s m (min_le_left e e'),
        decreaseExponent_value s' m' (min_le_right e e'), Option.some.inj hx, Option.some.inj hy]
    exact rational?_normalize hsum hvalue .positive

/-- A sum that comes to an integer up to 2^53 is that integer. -/
theorem integer?_add {x y : Float} {a b : Int} (hx : integer? x = some a)
    (hy : integer? y = some b) (hsum : |a + b| ≤ 2 ^ 53) : integer? (x + y) = some (a + b) := by
  rw [Int.abs_eq_natAbs] at hsum
  exact integer?_add_of_representable hx hy (representable_of_le (by exact_mod_cast hsum))

end ScriptMachine.Number
