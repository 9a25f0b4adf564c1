import ScriptMachine.Proofs.Number.Packing

/-!
# Integers among the numbers

The integers up to 2^53 are numbers exactly, and each of them is one number only.  They are the
positions of an array part, so a position and its key determine each other.
-/

namespace ScriptMachine.Number

open Float.Model (Format UnpackedFloat)
open Float.Model.UnpackedFloat

/-! ## Exact rounding -/

theorem toNat_one_append {n : Nat} (m : BitVec n) : (1#1 ++ m).toNat = 2 ^ n + m.toNat := by
  rw [BitVec.toNat_append, ← Nat.shiftLeft_add_eq_or_of_lt m.isLt, Nat.shiftLeft_eq]
  simp

theorem shiftRight_exact (m k : Nat) :
    (ExtendedMantissa.mk (m * 2 ^ k) false false) >>> k = ⟨m, false, false⟩ := by
  induction k generalizing m with
  | zero => simp [HShiftRight.hShiftRight, Nat.repeat]
  | succ k ih =>
    have hodd : m * 2 ^ (k + 1) = m * 2 * 2 ^ k := by ring
    change ExtendedMantissa.shiftRightOne
      (ExtendedMantissa.mk (m * 2 ^ (k + 1)) false false >>> k) = _
    rw [hodd, ih]
    simp [ExtendedMantissa.shiftRightOne]

theorem log2_mul_two_pow {n : Nat} (hpos : 0 < n) (k : Nat) :
    (n * 2 ^ k).log2 = n.log2 + k := by
  rw [Nat.log2_eq_iff (by positivity)]
  constructor
  · rw [pow_add]
    gcongr
    exact Nat.log2_self_le hpos.ne'
  · rw [show n.log2 + k + 1 = n.log2 + 1 + k by omega, pow_add]
    gcongr
    exact Nat.lt_log2_self

theorem log2_normal {m : Nat} (hlo : 2 ^ 52 ≤ m) (hhi : m < 2 ^ 53) (k : Nat) :
    (m * 2 ^ k).log2 = 52 + k := by
  rw [log2_mul_two_pow (by omega), (Nat.log2_eq_iff (by omega)).2 ⟨hlo, hhi⟩]

theorem shiftToTargetExponent_normal {m : Nat} {e : Int} (hlo : 2 ^ 52 ≤ m) (hhi : m < 2 ^ 53)
    (he : -1074 ≤ e) (k : Nat) :
    shiftToTargetExponent .binary64 (m * 2 ^ k) (e - k) .exact = (⟨m, false, false⟩, e) := by
  have ht : Format.binary64.targetExponent (Float.Model.totalExponent (m * 2 ^ k) (e - k)) = e := by
    simp only [Format.targetExponent, Float.Model.totalExponent, log2_normal hlo hhi,
      Format.mantissaBits, Format.minExponent]
    omega
  rw [shiftToTargetExponent, ht, shiftToExponent]
  simp [ExtendedMantissa.ofMantissaAndAccuracy, shiftRight_exact]

theorem roundWithAccuracy_normal {m : Nat} {e : Int} (hlo : 2 ^ 52 ≤ m) (hhi : m < 2 ^ 53)
    (he : -1074 ≤ e) (s : Sign) (k : Nat) :
    roundWithAccuracy .binary64 s (m * 2 ^ k) (e - k) .exact = .finite s m e (by omega) := by
  have hagain := shiftToTargetExponent_normal hlo hhi he 0
  simp only [pow_zero, mul_one, Nat.cast_zero, sub_zero] at hagain
  rw [roundWithAccuracy, shiftToTargetExponent_normal hlo hhi he]
  simp only [ExtendedMantissa.roundedMantissa, ExtendedMantissa.accuracy,
    Accuracy.roundToNearestEven, hagain]
  rw [dif_neg (by omega)]

theorem unpack_pack_normal {m : Nat} {e : Int} (hlo : 2 ^ 52 ≤ m) (hhi : m < 2 ^ 53)
    (he : -1074 ≤ e) (he' : e ≤ 971) (s : Sign) :
    unpack .binary64 (pack .binary64 (.finite s m e (by omega))) = .finite s m e (by omega) := by
  have hlog : m.log2 = 52 := by simpa using log2_normal hlo hhi 0
  have hbias : (Format.binary64.exponentBias : Int) = 1023 := rfl
  obtain ⟨b, hb⟩ : ∃ b : Nat, (b : Int) = e + 1075 := ⟨(e + 1075).toNat, by omega⟩
  have hb' : (e + Format.binary64.exponentBias + (52 : Nat)).toNat = b := by omega
  have hexp : (BitVec.ofNat 11 b).toNat = b := by
    rw [BitVec.toNat_ofNat]; exact Nat.mod_eq_of_lt (by omega)
  have hman : (BitVec.ofNat 52 m).toNat = m - 2 ^ 52 := by
    rw [BitVec.toNat_ofNat]; omega
  have hone : (1#1 ++ BitVec.ofNat 52 m).toNat = m := by
    rw [toNat_one_append, hman]; omega
  have hne : BitVec.ofNat 11 b ≠ -1#11 := fun h => by
    have := congrArg BitVec.toNat h
    rw [hexp, show (-1#11).toNat = 2047 from rfl] at this
    omega
  have hne' : BitVec.ofNat 11 b ≠ 0#11 := fun h => by
    have := congrArg BitVec.toNat h
    rw [hexp, show (0#11).toNat = 0 from rfl] at this
    omega
  simp only [pack, Format.mantissaBits, hlog, hb']
  rw [if_neg (by omega), if_true, unpack]
  simp only [unpackMantissa_packComponents, unpackExponent_packComponents,
    unpackSign_packComponents, Sign.ofBitVec_toBitVec, if_neg hne, if_neg hne', hone, hexp, hbias,
    hb]
  congr 1
  ring

/-! ## Natural numbers -/

/-- Below 2^53 an integer is a mantissa of full width when it is shifted up to the leading bit. -/
theorem shifted_normal {n : Nat} (hpos : 0 < n) (hn : n < 2 ^ 53) : n.log2 ≤ 52 ∧
    2 ^ 52 ≤ n * 2 ^ (52 - n.log2) ∧ n * 2 ^ (52 - n.log2) < 2 ^ 53 := by
  have hlog : n.log2 ≤ 52 := by
    have := (Nat.log2_lt hpos.ne').2 hn
    omega
  refine ⟨hlog, ?_, ?_⟩
  · calc 2 ^ 52 = 2 ^ n.log2 * 2 ^ (52 - n.log2) := by rw [← pow_add]; congr 1; omega
      _ ≤ _ := by gcongr; exact Nat.log2_self_le hpos.ne'
  · calc _ < 2 ^ (n.log2 + 1) * 2 ^ (52 - n.log2) := by gcongr; exact Nat.lt_log2_self
      _ = 2 ^ 53 := by rw [← pow_add]; congr 1; omega

/-- Below 2^53 an integer is represented exactly, its mantissa shifted up to the leading bit. -/
theorem parts_ofNat {n : Nat} (hpos : 0 < n) (hn : n < 2 ^ 53) :
    parts (ofNat n) =
      .finite .positive (n * 2 ^ (52 - n.log2)) (n.log2 - 52) (by positivity) := by
  obtain ⟨hlog, hlo, hhi⟩ := shifted_normal hpos hn
  have hround : Float.Model.UnpackedFloat.round .binary64 .positive n 0 =
      .finite .positive (n * 2 ^ (52 - n.log2)) (n.log2 - 52) (by positivity) := by
    have ht : Format.binary64.targetExponent (Float.Model.totalExponent n 0) = n.log2 - 52 := by
      simp only [Format.targetExponent, Float.Model.totalExponent, Format.mantissaBits,
        Format.minExponent]
      omega
    have hs : (0 - ((n.log2 : Int) - 52)).toNat = 52 - n.log2 := by omega
    have he : (0 : Int) - (52 - n.log2 : Nat) = n.log2 - 52 := by omega
    rw [Float.Model.UnpackedFloat.round, ht, decreaseExponent, hs, he, Nat.shiftLeft_eq]
    simpa using roundWithAccuracy_normal hlo hhi (by omega) .positive 0
  have hword : n.toUInt64.toNat = n := by
    simp only [Nat.toUInt64, UInt64.toNat_ofNat']; omega
  have hleft : parts n.toUInt64.toFloat =
      .finite .positive (n * 2 ^ (52 - n.log2)) (n.log2 - 52) (by positivity) := by
    have hcompare : compare (n : Int) 0 = .gt := Int.compare_eq_gt.2 (by omega)
    change unpack .binary64 (pack .binary64
      (Float.Model.UnpackedFloat.normalize .binary64 (n.toUInt64.toNat : Nat) 0 .positive)) = _
    rw [hword, Float.Model.UnpackedFloat.normalize, hcompare]
    simp only [Int.toNat_natCast, hround]
    exact unpack_pack_normal hlo hhi (by omega) (by omega) _
  have hone : parts (Float.exactlyRepresentablePowersOfTen[0]) =
      .finite .positive (2 ^ 52) (-52) (by decide) := by rfl
  have hofNat : ofNat n =
      n.toUInt64.toFloat * Float.exactlyRepresentablePowersOfTen[0] := by
    change Float.ofScientific n false 0 = _
    rw [Float.ofScientific, dif_pos ⟨hn, by decide⟩]
    simp
  rw [hofNat]
  change unpack .binary64 (pack .binary64
    (mul .binary64 (parts n.toUInt64.toFloat) (parts Float.exactlyRepresentablePowersOfTen[0]))) = _
  rw [hleft, hone, mul]
  have hmul :=
    roundWithAccuracy_normal hlo hhi (by omega : -1074 ≤ (n.log2 : Int) - 52) .positive 52
  rw [show (.positive * .positive : Sign) = .positive from rfl,
    show (n.log2 : Int) - 52 + -52 = n.log2 - 52 - (52 : Nat) by omega, hmul]
  exact unpack_pack_normal hlo hhi (by omega) (by omega) _

theorem integer?_ofNat {n : Nat} (hn : n ≤ 2 ^ 53) : integer? (ofNat n) = some (n : Int) := by
  rcases Nat.eq_zero_or_pos n with rfl | hpos
  · rfl
  rcases Nat.lt_or_eq_of_le hn with hlt | rfl
  · have hlog := (shifted_normal hpos hlt).1
    rw [integer?, parts_ofNat hpos hlt]
    simp only
    split
    · have he : n.log2 = 52 := by omega
      simp [he, Sign.apply]
    · have he : (-((n.log2 : Int) - 52)).toNat = 52 - n.log2 := by omega
      simp [Sign.apply]
  · rfl

/-! ## One number for an integer -/

theorem parts_finite_shape {x : Float} {s : Sign} {m : Nat} {e : Int} {hm : 0 < m}
    (h : parts x = .finite s m e hm) :
    (m < 2 ^ 52 ∧ e = -1074) ∨ (2 ^ 52 ≤ m ∧ m < 2 ^ 53 ∧ -1074 ≤ e ∧ e ≤ 971) := by
  obtain ⟨⟨bits, valid⟩⟩ := x
  have hman := (@unpackMantissa .binary64 bits.toBitVec).isLt
  have hbias : (Format.binary64.exponentBias : Int) = 1023 := rfl
  change unpack .binary64 bits.toBitVec = _ at h
  unfold unpack at h
  dsimp only at h
  split at h
  · split at h <;> cases h
  · rename_i hlast
    split at h
    · rename_i hzero
      split at h
      · cases h
      · cases h
        left
        rw [hzero, hbias]
        exact ⟨hman, by rfl⟩
    · rename_i hnonzero
      cases h
      have hexp : (@unpackExponent .binary64 bits.toBitVec).toNat ≠ 0 := fun h =>
        hnonzero (BitVec.eq_of_toNat_eq h)
      have hexp' : (@unpackExponent .binary64 bits.toBitVec).toNat ≠ 2047 := fun h => by
        exact hlast (BitVec.eq_of_toNat_eq h)
      have := (@unpackExponent .binary64 bits.toBitVec).isLt
      right
      rw [toNat_one_append, hbias]
      simp only at *
      omega

theorem unpack_pack_subnormal {m : Nat} (hpos : 0 < m) (hm : m < 2 ^ 52) (s : Sign) :
    unpack .binary64 (pack .binary64 (.finite s m (-1074) hpos)) = .finite s m (-1074) hpos := by
  have hlog : m.log2 + 1 ≠ Format.binary64.mantissaBits := by
    rw [show Format.binary64.mantissaBits = 53 from rfl]
    have := (Nat.log2_lt hpos.ne').2 hm
    omega
  have hbias : (Format.binary64.exponentBias : Int) = 1023 := rfl
  have hman : (BitVec.ofNat 52 m).toNat = m := by
    rw [BitVec.toNat_ofNat, Nat.mod_eq_of_lt hm]
  have hne : BitVec.ofNat 52 m ≠ 0#52 := fun h => by
    have := congrArg BitVec.toNat h
    rw [hman, show (0#52).toNat = 0 from rfl] at this
    omega
  rw [pack]
  dsimp only
  rw [if_neg (by omega), if_neg hlog, unpack]
  simp only [unpackMantissa_packComponents, unpackExponent_packComponents,
    unpackSign_packComponents, Sign.ofBitVec_toBitVec, hman]
  rw [if_neg (by decide), if_pos trivial, dif_neg hne]
  rfl

theorem unpack_pack_zero (s : Sign) : unpack .binary64 (pack .binary64 (.zero s)) = .zero s := by
  cases s <;> rfl

/-- Nothing is lost when the parts of a number are packed. -/
theorem unpack_pack_parts (x : Float) : unpack .binary64 (pack .binary64 (parts x)) = parts x := by
  cases h : parts x with
  | notANumber => rfl
  | infinity s => cases s <;> rfl
  | zero s => exact unpack_pack_zero s
  | finite s m e hm =>
    rcases parts_finite_shape h with ⟨hlt, rfl⟩ | ⟨hlo, hhi, he, he'⟩
    · exact unpack_pack_subnormal hm hlt s
    · exact unpack_pack_normal hlo hhi he he' s

theorem parts_ne_nan_of_integer? {x : Float} {n : Int} (h : integer? x = some n) :
    parts x ≠ .notANumber := by
  intro hx
  rw [integer?, hx] at h
  cases h

/-- A number with a positive integral value is finite, and its mantissa and exponent multiply out
to that value. -/
theorem parts_of_integer? {x : Float} {n : Nat} (hpos : 0 < n) (h : integer? x = some (n : Int)) :
    ∃ m e, ∃ hm : 0 < m, parts x = .finite .positive m e hm ∧
      m * 2 ^ e.toNat = n * 2 ^ (-e).toNat := by
  rw [integer?] at h
  split at h
  · have hzero := Option.some.inj h
    omega
  · rename_i s m e hm hx
    obtain rfl : s = .positive := by
      cases s with
      | positive => rfl
      | negative =>
        simp only [Sign.apply] at h
        split at h
        · have := Option.some.inj h
          have : (0 : Int) ≤ m * 2 ^ e.toNat := by positivity
          omega
        · split at h
          · have := Option.some.inj h
            have : (0 : Int) ≤ (m / 2 ^ (-e).toNat : Nat) := by positivity
            omega
          · cases h
    refine ⟨m, e, hm, hx, ?_⟩
    simp only [Sign.apply] at h
    split at h
    · have hval := Option.some.inj h
      rw [show (-e).toNat = 0 by omega, pow_zero, mul_one]
      exact_mod_cast hval
    · split at h
      · rename_i hdvd
        have hval : m / 2 ^ (-e).toNat = n := by exact_mod_cast Option.some.inj h
        rw [show e.toNat = 0 by omega, pow_zero, mul_one, ← hval]
        exact (Nat.div_mul_cancel (Nat.dvd_of_mod_eq_zero hdvd)).symm
      · cases h
  · cases h

/-- The mantissa and exponent of a positive integer are those of its leading bit. -/
theorem parts_of_pos_integer? {x : Float} {n : Nat} (hpos : 0 < n)
    (h : integer? x = some (n : Int)) :
    ∃ m, ∃ hm : 0 < m, parts x = .finite .positive m (n.log2 - 52) hm ∧
      m * 2 ^ ((n.log2 : Int) - 52).toNat = n * 2 ^ (52 - (n.log2 : Int)).toNat := by
  obtain ⟨m, e, hm, hx, hval⟩ := parts_of_integer? hpos h
  obtain rfl : e = n.log2 - 52 := by
    rcases parts_finite_shape hx with ⟨hlt, he⟩ | ⟨hlo, hhi, -⟩
    · -- a subnormal number is too small for an integer
      have hlarge : n * 2 ^ 52 ≤ n * 2 ^ (-e).toNat := by gcongr <;> omega
      rw [show e.toNat = 0 by omega, pow_zero, mul_one] at hval
      omega
    · have hlog := log2_normal hlo hhi e.toNat
      rw [hval, log2_mul_two_pow hpos] at hlog
      omega
  refine ⟨m, hm, hx, ?_⟩
  rw [hval]
  congr 3
  omega

/-- An integer other than zero is one number only. -/
theorem eq_of_integer? {x y : Float} {n : Nat} (hpos : 0 < n) (hx : integer? x = some (n : Int))
    (hy : integer? y = some (n : Int)) : x = y := by
  obtain ⟨m, hm, hxp, hxv⟩ := parts_of_pos_integer? hpos hx
  obtain ⟨m', hm', hyp, hyv⟩ := parts_of_pos_integer? hpos hy
  have hmm : m = m' := Nat.eq_of_mul_eq_mul_right (Nat.two_pow_pos _) (hxv.trans hyv.symm)
  subst hmm
  exact parts_injective (hxp.trans hyp.symm)

/-! ## Positions -/

theorem index?_ofNat {n : Nat} (hpos : 1 ≤ n) (hn : n ≤ 2 ^ 53) : index? (ofNat n) = some n := by
  rw [index?, integer?_ofNat hn]
  simp only
  rw [if_pos (by omega), Int.toNat_natCast]

/-- The numbers that are positions are the integers from 1 to 2^53. -/
theorem index?_eq_some_iff {x : Float} {n : Nat} :
    index? x = some n ↔ 1 ≤ n ∧ n ≤ 2 ^ 53 ∧ x = ofNat n := by
  constructor
  · intro h
    rw [index?] at h
    split at h
    · rename_i i hi
      split at h
      · rename_i hrange
        have hn := Option.some.inj h
        have hin : i = (n : Int) := by omega
        rw [hin] at hi
        exact ⟨by omega, by omega, eq_of_integer? (by omega) hi (integer?_ofNat (by omega))⟩
      · cases h
    · cases h
  · rintro ⟨hpos, hn, rfl⟩
    exact index?_ofNat hpos hn

/-- Past 2^53 the next integer is no number of its own: it rounds back. -/
theorem ofNat_past_top : ofNat (2 ^ 53 + 1) = ofNat (2 ^ 53) := by
  exact parts_injective rfl

/-! ## An integer is never a NaN -/

/-- Packing makes a NaN out of nothing else. -/
theorem unpack_pack_ne_nan {u : UnpackedFloat} (h : u ≠ .notANumber) :
    unpack .binary64 (pack .binary64 u) ≠ .notANumber := by
  have hinfinity : ∀ s, unpack .binary64 (packedInfinity .binary64 s) ≠ .notANumber := by
    intro s
    rw [packedInfinity, unpack]
    simp
  have hfield : ∀ s (e : BitVec 11) (m : BitVec 52), e ≠ -1#11 →
      unpack .binary64 (packComponents .binary64 s e m) ≠ .notANumber := by
    intro s e m he
    rw [unpack]
    simp only [unpackExponent_packComponents, unpackMantissa_packComponents, if_neg he]
    split
    · split <;> simp
    · simp
  cases u with
  | notANumber => exact absurd rfl h
  | infinity s => exact hinfinity s
  | zero s => exact hfield s 0 0 (by decide)
  | finite s m e hm =>
    rw [pack]
    dsimp only
    split
    · exact hinfinity s
    · rename_i hexp
      split
      · refine hfield s _ _ fun h => ?_
        have := congrArg BitVec.toNat h
        rw [BitVec.toNat_ofNat, show (-1#11).toNat = 2047 from rfl] at this
        omega
      · exact hfield s _ _ (by decide)

theorem roundWithAccuracy_ne_nan (spec : Format) (s : Sign) (m : Nat) (e : Int) (a : Accuracy) :
    roundWithAccuracy spec s m e a ≠ .notANumber := by
  rw [roundWithAccuracy]
  dsimp only
  split <;> simp

theorem parts_ofNat_ne_nan (n : Nat) : parts (ofNat n) ≠ .notANumber := by
  rcases Nat.lt_or_ge n (2 ^ 53) with hlt | hge
  · exact parts_ne_nan_of_integer? (integer?_ofNat hlt.le)
  · have hofNat : ofNat n = .ofModel (Float.Model.ofScientific n (Int.ofNat 0)) := by
      change Float.ofScientific n false 0 = _
      rw [Float.ofScientific, dif_neg (by omega)]
      rfl
    rw [hofNat]
    refine unpack_pack_ne_nan ?_
    rw [UnpackedFloat.ofScientific, dif_neg (by omega), if_neg (by decide),
      if_neg (by simp), if_pos (by simp), UnpackedFloat.mul]
    exact roundWithAccuracy_ne_nan _ _ _ _ _

theorem parts_ofInt_ne_nan (n : Int) : parts (ofInt n) ≠ .notANumber := by
  cases n with
  | ofNat n => exact parts_ofNat_ne_nan n
  | negSucc n =>
    have hnat := parts_ofNat_ne_nan (n + 1)
    refine unpack_pack_ne_nan ?_
    change UnpackedFloat.neg (parts (ofNat (n + 1))) ≠ .notANumber
    cases h : parts (ofNat (n + 1)) with
    | notANumber => exact absurd h hnat
    | _ => simp [UnpackedFloat.neg]

end ScriptMachine.Number
