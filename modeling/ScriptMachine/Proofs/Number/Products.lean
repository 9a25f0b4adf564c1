import ScriptMachine.Proofs.Number.Values

/-!
# Exact products

A product of natural numbers is exact when it is a number itself, and so is the number made of a
natural number.  Digits are gathered into a number by a product and a sum for each of them, so that
their value is exact as long as every value on the way to it is.
-/

namespace ScriptMachine.Number

open Float.Model (Format UnpackedFloat)
open Float.Model.UnpackedFloat

/-! ## Powers of two -/

theorem representable_two_pow {k : Nat} (hk : k ≤ 1023) : Representable (2 ^ k) := by
  refine .inr ⟨2 ^ 52, (k : Int) - 52, by omega, by omega, by omega, by omega, ?_⟩
  have hlead : ((2 ^ 52 : Nat) : ℚ) = 2 ^ (52 : Int) := by norm_num
  rw [hlead, ← zpow_add₀ two_ne_zero, Nat.cast_pow, Nat.cast_ofNat, ← zpow_natCast]
  congr 1
  omega

/-! ## Rounding -/

/-- A mantissa with the leading bit of a number, or one above it, is not rounded when it comes to an
integer that is a number. -/
theorem rational?_roundWithAccuracy {M n : Nat} {i : Int} (hM : 2 ^ 52 ≤ M)
    (hn : Representable n) (s : Sign) (h : (M : ℚ) * 2 ^ i = n) :
    rational? (unpack .binary64 (pack .binary64 (roundWithAccuracy .binary64 s M i .exact))) =
      some (s.apply n : ℚ) := by
  have hscale : (0 : ℚ) < 2 ^ i := by positivity
  have hMpos : 0 < M := by omega
  have hne : n ≠ 0 := by
    rintro rfl
    have : (0 : ℚ) < M * 2 ^ i := by positivity
    simp [h] at this
  obtain ⟨m, e, hlo, hhi, he, he', hm⟩ := hn.resolve_left hne
  have hie : i ≤ e := by
    by_contra hlt
    exact (scaled_lt hhi hM (not_le.1 hlt)).ne (hm.trans h.symm)
  obtain ⟨k, rfl⟩ : ∃ k : Nat, i = e - k := ⟨(e - i).toNat, by omega⟩
  have hshift : M = m * 2 ^ k := by
    rw [eq_shift hie (h.trans hm.symm)]
    congr 2
    omega
  rw [hshift, roundWithAccuracy_normal hlo hhi he, unpack_pack_normal hlo hhi he he', rational?]
  cases s <;> simp [Sign.apply, hm]

/-! ## Products -/

theorem parts_of_integer?_zero {x : Float} (h : integer? x = some 0) :
    ∃ s, parts x = .zero s := by
  rw [integer?_eq_some_iff] at h
  rcases hx : parts x with s | _ | s | ⟨s, m, e, hm⟩
  · rw [hx] at h
    cases h
  · rw [hx] at h
    cases h
  · exact ⟨s, rfl⟩
  · have hvalue : (0 : ℚ) < m * 2 ^ e := by positivity
    rw [hx, rational?, Int.cast_zero, Option.some.injEq] at h
    cases s <;> simp only [Sign.apply, Int.cast_neg, Int.cast_natCast, neg_mul, neg_eq_zero] at h
      <;> exact absurd h hvalue.ne'

/-- The mantissa of a positive integer has the leading bit. -/
theorem normal_of_integer? {x : Float} {n : Nat} (hpos : 0 < n)
    (h : integer? x = some (n : Int)) : ∃ m e, ∃ hm : 0 < m,
      parts x = .finite .positive m e hm ∧ 2 ^ 52 ≤ m ∧ (m : ℚ) * 2 ^ e = n := by
  obtain ⟨m, hm, hx, -⟩ := parts_of_pos_integer? hpos h
  refine ⟨m, _, hm, hx, ?_, ?_⟩
  · rcases parts_finite_shape hx with ⟨-, he⟩ | ⟨hlo, -⟩
    · omega
    · exact hlo
  · rw [integer?_eq_some_iff, hx, rational?] at h
    simpa [Sign.apply] using h

/-- A product of natural numbers that is a number is exact. -/
theorem integer?_mul {x y : Float} {a b : Nat} (hx : integer? x = some (a : Int))
    (hy : integer? y = some (b : Int)) (hab : Representable (a * b)) :
    integer? (x * y) = some ((a * b : Nat) : Int) := by
  rw [integer?_eq_some_iff]
  change rational? (unpack .binary64 (pack .binary64
    (UnpackedFloat.mul .binary64 (parts x) (parts y)))) = _
  rcases Nat.eq_zero_or_pos a with rfl | ha <;> rcases Nat.eq_zero_or_pos b with rfl | hb
  · obtain ⟨s, hxp⟩ := parts_of_integer?_zero hx
    obtain ⟨s', hyp⟩ := parts_of_integer?_zero hy
    rw [hxp, hyp, UnpackedFloat.mul, unpack_pack_zero]
    simp [rational?]
  · obtain ⟨s, hxp⟩ := parts_of_integer?_zero hx
    obtain ⟨m, e, hm, hyp, -⟩ := normal_of_integer? hb hy
    rw [hxp, hyp, UnpackedFloat.mul, unpack_pack_zero]
    simp [rational?]
  · obtain ⟨m, e, hm, hxp, -⟩ := normal_of_integer? ha hx
    obtain ⟨s, hyp⟩ := parts_of_integer?_zero hy
    rw [hxp, hyp, UnpackedFloat.mul, unpack_pack_zero]
    simp [rational?]
  · obtain ⟨m, e, hm, hxp, hlo, hvalue⟩ := normal_of_integer? ha hx
    obtain ⟨m', e', hm', hyp, -, hvalue'⟩ := normal_of_integer? hb hy
    have hproduct : ((m * m' : Nat) : ℚ) * 2 ^ (e + e') = (a * b : Nat) := by
      rw [Nat.cast_mul, Nat.cast_mul, ← hvalue, ← hvalue', zpow_add₀ two_ne_zero]
      ring
    rw [hxp, hyp, UnpackedFloat.mul,
      rational?_roundWithAccuracy (hlo.trans (Nat.le_mul_of_pos_right m hm')) hab _ hproduct]
    rfl

/-! ## Natural numbers -/

/-- A natural number that is a number is exact. -/
theorem integer?_ofNat_of_representable {n : Nat} (hn : Representable n) :
    integer? (ofNat n) = some (n : Int) := by
  rcases Nat.lt_or_ge n (2 ^ 53) with hlt | hge
  · exact integer?_ofNat hlt.le
  have hofNat : ofNat n = .ofModel (Float.Model.ofScientific n (Int.ofNat 0)) := by
    change Float.ofScientific n false 0 = _
    rw [Float.ofScientific, dif_neg (by omega)]
    rfl
  rw [hofNat, integer?_eq_some_iff]
  change rational? (unpack .binary64 (pack .binary64
    (UnpackedFloat.ofScientific .binary64 n 0))) = _
  rw [UnpackedFloat.ofScientific, dif_neg (by omega), if_neg (by decide), if_neg (by simp),
    if_pos le_rfl, UnpackedFloat.mul]
  have hvalue : ((n <<< Format.binary64.mantissaBits * 10 ^ (0 : Int).toNat : Nat) : ℚ) *
      2 ^ (-(Format.binary64.mantissaBits : Int) + 0) = n := by
    rw [Nat.shiftLeft_eq, Int.toNat_zero, pow_zero, mul_one, add_zero, Nat.cast_mul, Nat.cast_pow,
      Nat.cast_ofNat, zpow_neg, zpow_natCast]
    exact mul_inv_cancel_right₀ (by positivity) _
  have hwide : 2 ^ 52 ≤ n <<< Format.binary64.mantissaBits * 10 ^ (0 : Int).toNat := by
    rw [Nat.shiftLeft_eq, Int.toNat_zero, pow_zero, mul_one]
    exact (by omega : 2 ^ 52 ≤ n).trans (Nat.le_mul_of_pos_right n (Nat.two_pow_pos _))
  rw [rational?_roundWithAccuracy hwide hn _ hvalue]
  rfl

/-! ## Signs -/

theorem integer?_neg {x : Float} {n : Int} (h : integer? x = some n) :
    integer? (-x) = some (-n) := by
  have hneg : parts (-x) = UnpackedFloat.neg (parts x) := by
    change unpack .binary64 (pack .binary64 (UnpackedFloat.neg (parts x))) = _
    rcases hx : parts x with s | _ | s | ⟨s, m, e, hm⟩
    · cases s <;> rfl
    · rfl
    · exact unpack_pack_zero _
    · rcases parts_finite_shape hx with ⟨hlt, rfl⟩ | ⟨hlo, hhi, he, he'⟩
      · exact unpack_pack_subnormal hm hlt _
      · exact unpack_pack_normal hlo hhi he he' _
  rw [integer?_eq_some_iff] at h ⊢
  rw [hneg]
  rcases hx : parts x with s | _ | s | ⟨s, m, e, hm⟩ <;> rw [hx] at h
  · cases h
  · cases h
  · have hzero : n = 0 := by simpa [rational?] using h.symm
    simp [UnpackedFloat.neg, rational?, hzero]
  · rw [rational?, Option.some.injEq] at h
    rw [UnpackedFloat.neg, rational?, Int.cast_neg, ← h]
    cases s <;> simp [Sign.apply]

/-! ## Digits -/

theorem valueOfDigits_append (base : Nat) (ds : List Nat) (d : Nat) :
    Bytes.valueOfDigits base (ds ++ [d]) = Bytes.valueOfDigits base ds * base + d := by
  rw [Bytes.valueOfDigits, List.foldl_append]
  rfl

/-- The value of digits is their positional value. -/
theorem valueOfDigits_eq_ofDigits (base : Nat) (ds : List Nat) :
    Bytes.valueOfDigits base ds = Nat.ofDigits base ds.reverse := by
  induction ds using List.reverseRecOn with
  | nil => rfl
  | append_singleton ds d ih =>
    rw [valueOfDigits_append, List.reverse_append, List.reverse_singleton, List.singleton_append,
      Nat.ofDigits_cons, ih]
    ring

/-- Digits are gathered exactly when all values on the way to theirs are numbers.  `Q` is what is
known of the last of these values, and is handed down to those before. -/
theorem integer?_foldl_digits {base : Nat} {x : Float} (hx : integer? x = some (base : Int))
    {Q : Nat → Prop} (hQ : ∀ v d, d < base → Q (v * base + d) →
      Q v ∧ Representable (v * base) ∧ Representable (v * base + d))
    {ds : List Nat} (hds : ∀ d ∈ ds, d < base) (hbase : base ≤ 2 ^ 53)
    (h : Q (Bytes.valueOfDigits base ds)) :
    integer? (ds.foldl (fun value digit => value * x + ofNat digit) 0) =
      some (Bytes.valueOfDigits base ds : Int) := by
  induction ds using List.reverseRecOn with
  | nil => exact integer?_ofNat (Nat.zero_le _)
  | append_singleton ds d ih =>
    rw [List.forall_mem_append, List.forall_mem_singleton] at hds
    rw [valueOfDigits_append] at h ⊢
    obtain ⟨hbefore, hproduct, hsum⟩ := hQ _ d hds.2 h
    have hscaled := integer?_mul (ih hds.1 hbefore) hx hproduct
    have hdigit := integer?_ofNat (n := d) (by omega)
    rw [List.foldl_append, Nat.cast_add]
    exact integer?_add_of_representable hscaled hdigit (by exact_mod_cast hsum)

end ScriptMachine.Number
