import ScriptMachine.Proofs.Number.Bases
import ScriptMachine.Proofs.Number.Numerals

/-!
# Two readers of hexadecimal digits

Hexadecimal digits are read behind a mark, in 64 bits, and without one as an integer of base 16,
gathered in doubles.  Both readers are exact on numbers below 2^53 and on powers of two as far as
they have room for them: the second reads all of those that are numbers, and the first ends at 2^64.
-/

namespace ScriptMachine

namespace Numeral

/-- Behind a mark, digits are read as far as 64 bits hold them. -/
theorem ofNumeral?_of_hexadecimal {negative : Bool} {ds : List Nat} {s : Bytes}
    (hs : s ∈ blank * (signOf negative * (hexMark * digitsOf 16 ds * blank))) :
    Number.ofNumeral? s = some (Number.withSign negative
      (Number.ofNat (min (Nat.ofDigits 16 ds.reverse) (2 ^ 64 - 1)))) := by
  obtain ⟨before, hbefore, _, ⟨sign, hsign, _, ⟨_, ⟨mark, hmark, t, ht, rfl⟩, after, hafter, rfl⟩,
    rfl⟩, rfl⟩ := hs
  have hdigits := mem_digits_of_mem ht
  have hhexadecimal : mark ++ t ∈ literal :=
    (Language.mem_add _ _ _).2 (.inl (Language.append_mem_mul hmark hdigits))
  obtain ⟨hfirst, hlast⟩ := literal_ends hhexadecimal
  have hbody := takeSign_trim hbefore hsign
    (beginning_mono (fun _ h => (of_figure h).1) hfirst) hlast hafter
  have hplain : [] ∈ signOf false := .inl rfl
  have hfield := hexField?_of_mem (nil_mem_manyOf _) hplain
    ((Language.mem_add _ _ _).2 (.inl rfl)) ht
  rw [List.nil_append, List.nil_append, List.nil_append,
    Number.valueOfDigits_eq_ofDigits] at hfield
  have hvalue : Number.hexField? t = some (min (Nat.ofDigits 16 ds.reverse) (2 ^ 64 - 1)) := by
    rw [hfield]
    split
    · rw [Nat.min_eq_right (by omega)]
    · rw [if_neg Bool.false_ne_true, Nat.min_eq_left (by omega)]
  dsimp only
  rw [Number.ofNumeral?, hbody]
  dsimp only
  rw [takeHexMark?_append hmark (ne_nil_of_digits hdigits)]
  dsimp only
  rw [hvalue]
  rfl

end Numeral

namespace Number

open Numeral

/-- What is known of the value of hexadecimal digits is known of the value of those before the last,
and all of them are numbers. -/
theorem small_or_power_before {v d : Nat} (hd : d < 16)
    (h : v * 16 + d < 2 ^ 53 ∨ ∃ k ≤ 1023, v * 16 + d = 2 ^ k) :
    (v < 2 ^ 53 ∨ ∃ k ≤ 1023, v = 2 ^ k) ∧ Representable (v * 16) ∧
      Representable (v * 16 + d) := by
  rcases h with hsmall | ⟨k, hk, hpower⟩
  · exact ⟨.inl (by omega), representable_of_le (by omega), representable_of_le hsmall.le⟩
  · have hwhole : Representable (v * 16 + d) := hpower ▸ representable_two_pow hk
    rcases Nat.lt_or_ge k 4 with hlt | hge
    · have hlittle : 2 ^ k ≤ 2 ^ 3 := Nat.pow_le_pow_right (by decide) (by omega)
      exact ⟨.inl (by omega), representable_of_le (by omega), hwhole⟩
    · obtain ⟨j, rfl⟩ := Nat.exists_eq_add_of_le' hge
      rw [pow_add] at hpower
      have hlast : d = 0 := by omega
      subst hlast
      exact ⟨.inr ⟨j, by omega, by omega⟩, hwhole, hwhole⟩

theorem representable_of_small_or_power {v : Nat} (h : v < 2 ^ 53 ∨ ∃ k ≤ 1023, v = 2 ^ k) :
    Representable v := by
  rcases h with hsmall | ⟨k, hk, rfl⟩
  · exact representable_of_le hsmall.le
  · exact representable_two_pow hk

/-- Hexadecimal digits below 2^53 or of a power of two are gathered into the number of their
value. -/
theorem gathered_hexadecimal {ds : List Nat} (hds : ∀ d ∈ ds, d < 16) {v : Nat}
    (hv : Nat.ofDigits 16 ds.reverse = v) (h : v < 2 ^ 53 ∨ ∃ k ≤ 1023, v = 2 ^ k) :
    gathered 16 ds = ofNat v := by
  rw [← valueOfDigits_eq_ofDigits] at hv
  rcases Nat.eq_zero_or_pos v with rfl | hpos
  · exact gathered_zeros (by decide) (by decide) hv
  · refine eq_of_integer? hpos ?_ (integer?_ofNat_of_representable
      (representable_of_small_or_power h))
    rw [← hv]
    exact integer?_foldl_digits (integer?_ofNat (by decide))
      (Q := fun v => v < 2 ^ 53 ∨ ∃ k ≤ 1023, v = 2 ^ k)
      (fun v d hd hv => small_or_power_before hd hv) hds (by decide) (hv ▸ h)

/-- The greatest integer of 64 bits is rounded up to the next one. -/
theorem ofNat_top_word : ofNat (2 ^ 64 - 1) = ofNat (2 ^ 64) := by
  exact parts_injective rfl

/-- An integer that 64 bits do not hold is cut to them, and comes to 2^64 as a number. -/
theorem ofNat_min_word (v : Nat) : ofNat (min v (2 ^ 64 - 1)) = ofNat (min v (2 ^ 64)) := by
  rcases Nat.lt_or_ge v (2 ^ 64) with hlt | hge
  · rw [Nat.min_eq_left (by omega), Nat.min_eq_left hlt.le]
  · rw [Nat.min_eq_right (by omega), Nat.min_eq_right hge, ofNat_top_word]

end Number

/-! ## The library function -/

namespace Library

open Numeral Number

section

variable {d : Bytes} {ds : List Nat} {v : Nat}

/-- Behind a mark, digits are read as their value, and from 2^64 on as 2^64. -/
theorem tonumber_marked (hd : d ∈ digitsOf 16 ds) (hv : Nat.ofDigits 16 ds.reverse = v) :
    tonumber [.string (0x30 :: 0x78 :: d)] = .done [.number (ofNat (min v (2 ^ 64)))] := by
  have hmark : [0x30, 0x78] ∈ hexMark := .inl rfl
  have hplain : [] ∈ signOf false := .inl rfl
  have hmem : 0x30 :: 0x78 :: d ∈ blank * (signOf false * (hexMark * digitsOf 16 ds * blank)) :=
    ⟨[], nil_mem_manyOf _, _, ⟨[], hplain, _, ⟨_, ⟨_, hmark, d, hd, rfl⟩, [], nil_mem_manyOf _,
      List.append_nil _⟩, rfl⟩, rfl⟩
  have hread : ofNumeral? (0x30 :: 0x78 :: d) = some (ofNat (min v (2 ^ 64))) := by
    rw [ofNumeral?_of_hexadecimal hmem, hv, ofNat_min_word]
    rfl
  have hcall : tonumber [.string (0x30 :: 0x78 :: d)] =
      .done [numberOrNil (ofNumeral? (0x30 :: 0x78 :: d))] := rfl
  rw [hcall, hread]
  rfl

/-- In base 16, digits below 2^53 or of a power of two are read as their value. -/
theorem tonumber_unmarked (hd : d ∈ digitsOf 16 ds) (hv : Nat.ofDigits 16 ds.reverse = v)
    (hsize : v < 2 ^ 53 ∨ ∃ k ≤ 1023, v = 2 ^ k) :
    tonumber [.string d, .ofNat 16] = .done [.number (ofNat v)] := by
  have hplain : [] ∈ signOf false := .inl rfl
  have hmem : d ∈ integerOf 16 false ds :=
    ⟨[], nil_mem_manyOf _, _, ⟨[], hplain, _, ⟨d, hd, [], nil_mem_manyOf _, List.append_nil d⟩,
      rfl⟩, rfl⟩
  have hgathered := gathered_hexadecimal (worths_lt hd.2) hv hsize
  rw [tonumber_in_base rfl rfl (integer?_ofNat (n := 16) (by decide)) (by decide) (by decide),
    readInBase_of_mem hmem, hgathered]
  rfl

/-- Hexadecimal digits, however many, whose value is below 2^53 or a power of two that is a number
are read in base 16 as their value, and behind a mark as their value or 2^64, whichever is less.  So
the two readers agree up to 2^64 and on nothing above. -/
theorem hexadecimal_readers_agree_iff (hd : d ∈ digitsOf 16 ds)
    (hv : Nat.ofDigits 16 ds.reverse = v) (hsize : v < 2 ^ 53 ∨ ∃ k ≤ 1023, v = 2 ^ k) :
    integer? (ofNat v) = some (v : Int) ∧
    tonumber [.string d, .ofNat 16] = .done [.number (ofNat v)] ∧
    tonumber [.string (0x30 :: 0x78 :: d)] = .done [.number (ofNat (min v (2 ^ 64)))] ∧
    (tonumber [.string (0x30 :: 0x78 :: d)] = tonumber [.string d, .ofNat 16] ↔ v ≤ 2 ^ 64) := by
  have hexact := integer?_ofNat_of_representable (representable_of_small_or_power hsize)
  have hlimit := integer?_ofNat_of_representable (representable_two_pow (k := 64) (by decide))
  refine ⟨hexact, tonumber_unmarked hd hv hsize, tonumber_marked hd hv, ?_⟩
  rw [tonumber_unmarked hd hv hsize, tonumber_marked hd hv]
  constructor
  · intro h
    by_contra hgreat
    rw [Nat.min_eq_right (by omega)] at h
    have hsame : ofNat (2 ^ 64) = ofNat v := by
      injection h with h
      injection h with h
      injection h
    rw [hsame, hexact] at hlimit
    have := Option.some.inj hlimit
    omega
  · intro hle
    rw [Nat.min_eq_left hle]

end

/-- With a leading zero, the digits of 2^64 are read as 2^64 by both. -/
theorem hexadecimal_readers_agree_at_limit :
    tonumber [.string (0x30 :: 0x78 :: Bytes.ofString "010000000000000000")] =
      .done [.number (ofNat (2 ^ 64))] ∧
    tonumber [.string (Bytes.ofString "010000000000000000"), .ofNat 16] =
      .done [.number (ofNat (2 ^ 64))] := by
  have hd : Bytes.ofString "010000000000000000" ∈ digitsOf 16 (0 :: 1 :: List.replicate 16 0) := by
    decide +kernel
  have hv : Nat.ofDigits 16 (0 :: 1 :: List.replicate 16 0).reverse = 2 ^ 64 := by decide
  obtain ⟨-, hplain, -, hagree⟩ :=
    hexadecimal_readers_agree_iff hd hv (.inr ⟨64, by decide, rfl⟩)
  exact ⟨(hagree.2 le_rfl).trans hplain, hplain⟩

/-- The digits of 2^65 are read as 2^65 in base 16 and as 2^64 behind a mark. -/
theorem hexadecimal_readers_part :
    tonumber [.string (Bytes.ofString "20000000000000000"), .ofNat 16] =
      .done [.number (ofNat (2 ^ 65))] ∧
    tonumber [.string (0x30 :: 0x78 :: Bytes.ofString "20000000000000000")] =
      .done [.number (ofNat (2 ^ 64))] ∧
    integer? (ofNat (2 ^ 65)) = some (2 ^ 65) ∧ integer? (ofNat (2 ^ 64)) = some (2 ^ 64) := by
  have hd : Bytes.ofString "20000000000000000" ∈ digitsOf 16 (2 :: List.replicate 16 0) := by
    decide +kernel
  have hv : Nat.ofDigits 16 (2 :: List.replicate 16 0).reverse = 2 ^ 65 := by decide
  have hexact : ∀ k ≤ 1023, integer? (ofNat (2 ^ k)) = some ((2 ^ k : Nat) : Int) :=
    fun k hk => integer?_ofNat_of_representable (representable_two_pow hk)
  have hcut := tonumber_marked hd hv
  rw [Nat.min_eq_right (by decide)] at hcut
  exact ⟨tonumber_unmarked hd hv (.inr ⟨65, by decide, rfl⟩), hcut,
    hexact 65 (by decide), hexact 64 (by decide)⟩

end Library

end ScriptMachine
