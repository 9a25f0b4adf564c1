import ScriptMachine.Library
import ScriptMachine.Proofs.Number.Digits
import ScriptMachine.Proofs.Number.Products

/-!
# Integers of a base

What is read as a number of a given base is white space, a sign, digits of that base and white
space, and nothing else.  The number is the positional value of the digits as long as that is at
most 2^53, although it is gathered in doubles.
-/

namespace ScriptMachine

namespace Numeral

/-- The texts of an integer of a base, by its sign and its digits. -/
def integerOf (base : Nat) (negative : Bool) (ds : List Nat) : Language UInt8 :=
  blank * (signOf negative * (digitsOf base ds * blank))

/-- The integer that a sign and digits stand for, each digit by its position. -/
def positional (base : Nat) (negative : Bool) (ds : List Nat) : Int :=
  let value : Nat := Nat.ofDigits base ds.reverse
  if negative then -value else value

end Numeral

namespace Number

open Float.Model (UnpackedFloat)
open Float.Model.UnpackedFloat
open Numeral

/-! ## Acceptance -/

/-- The number that digits are gathered into. -/
def gathered (base : Nat) (ds : List Nat) : Float :=
  ds.foldl (fun value digit => value * ofNat base + ofNat digit) 0

section Acceptance

variable {base : Nat} {s : Bytes} {negative : Bool} {ds : List Nat}

theorem readInBase_of_mem (hs : s ∈ integerOf base negative ds) :
    readInBase base s = some (withSign negative (gathered base ds)) := by
  obtain ⟨before, hbefore, _, ⟨mark, hmark, _, ⟨text, htext, after, hafter, rfl⟩, rfl⟩, rfl⟩ := hs
  have hfirst := append_mem_beginning (digits_ends (mem_digits_of_mem htext)).1 after
  have hsolid := sign_append_beginning (signOf_le_sign _ hmark)
    (beginning_mono (fun _ h => (of_isAlphanumeric h).1) hfirst)
  have hsign := takeSign_append hmark (beginning_mono (fun _ h => (of_isAlphanumeric h).2) hfirst)
  have hstops : Stops base after := by
    intro b d hb hd
    have hspace := hafter b (List.mem_of_head? hb)
    have hnot := (of_isAlphanumeric (isAlphanumeric_of_isDigit hd)).1
    simp [hspace] at hnot
  obtain ⟨d, ds, rfl⟩ := List.exists_cons_of_ne_nil htext.1
  dsimp only
  rw [readInBase, trimLeft_append hbefore, trimLeft_of_beginning hsolid, hsign]
  dsimp only
  rw [readDigits_append htext.2 hstops]
  dsimp only
  rw [if_pos (trimLeft_eq_nil_iff.2 hafter)]
  rfl

theorem exists_mem_of_readInBase {x : Float} (h : readInBase base s = some x) :
    ∃ negative ds, s ∈ integerOf base negative ds := by
  obtain ⟨before, hbefore, hs⟩ := exists_trimLeft s
  obtain ⟨mark, hmark, hsigned⟩ := exists_takeSign (Bytes.trimLeft s)
  obtain ⟨text, htext, hds, -⟩ := exists_readDigits base (takeSign (Bytes.trimLeft s)).2
  rw [readInBase] at h
  dsimp only at h
  split at h
  · cases h
  · rename_i ds rest hne hread
    rw [hread] at htext hds
    split at h
    · rename_i hblank
      have hwhole : s = before ++ (mark ++ (text ++ rest)) := by rw [← htext, ← hsigned, ← hs]
      obtain ⟨negative, hmark⟩ : ∃ negative, mark ∈ signOf negative := ⟨_, hmark⟩
      refine ⟨negative, ds, ?_⟩
      rw [hwhole]
      have hdigits : text ∈ digitsOf base ds := ⟨hne, hds⟩
      exact Language.append_mem_mul hbefore (Language.append_mem_mul hmark
        (Language.append_mem_mul hdigits (trimLeft_eq_nil_iff.1 hblank)))
    · cases h

theorem readInBase_isSome_iff :
    (readInBase base s).isSome ↔ ∃ negative ds, s ∈ integerOf base negative ds := by
  rw [Option.isSome_iff_exists]
  constructor
  · rintro ⟨x, hx⟩
    exact exists_mem_of_readInBase hx
  · rintro ⟨negative, ds, hs⟩
    exact ⟨_, readInBase_of_mem hs⟩

end Acceptance

/-! ## Values -/

theorem integer?_withSign {x : Float} {base : Nat} {ds : List Nat} (negative : Bool)
    (h : integer? x = some (Bytes.valueOfDigits base ds : Int)) :
    integer? (withSign negative x) = some (positional base negative ds) := by
  rw [valueOfDigits_eq_ofDigits] at h
  cases negative with
  | false => exact h
  | true => exact integer?_neg h

theorem natAbs_positional (base : Nat) (negative : Bool) (ds : List Nat) :
    (positional base negative ds).natAbs = Bytes.valueOfDigits base ds := by
  rw [valueOfDigits_eq_ofDigits]
  cases negative with
  | false => exact Int.natAbs_natCast _
  | true => exact (Int.natAbs_neg _).trans (Int.natAbs_natCast _)

theorem worths_lt {base : Nat} {s : Bytes} {ds : List Nat}
    (hs : List.Forall₂ (IsDigit base) s ds) : ∀ d ∈ ds, d < base := by
  induction hs with
  | nil => exact fun _ hd => nomatch hd
  | cons hd _ ih => exact List.forall_mem_cons.2 ⟨hd.1, ih⟩

/-- Digits that come to at most 2^53 are gathered exactly. -/
theorem integer?_gathered {base : Nat} (hpos : 0 < base) (hbase : base ≤ 2 ^ 53) {ds : List Nat}
    (hds : ∀ d ∈ ds, d < base) (hvalue : Bytes.valueOfDigits base ds ≤ 2 ^ 53) :
    integer? (gathered base ds) = some (Bytes.valueOfDigits base ds : Int) := by
  refine integer?_foldl_digits (integer?_ofNat hbase) (Q := (· ≤ 2 ^ 53)) (fun v d _ hv => ?_) hds
    hbase hvalue
  have hgrows : v ≤ v * base := Nat.le_mul_of_pos_right v hpos
  exact ⟨by omega, representable_of_le (by omega), representable_of_le hv⟩

/-- Nothing times a number, and nothing: the positive zero. -/
theorem zero_mul_add_zero {base : Nat} (hpos : 0 < base) (hbase : base < 2 ^ 53) :
    ofNat 0 * ofNat base + ofNat 0 = ofNat 0 := by
  have hzero : parts (ofNat 0) = .zero .positive := by rfl
  have hproduct : ofNat 0 * ofNat base = ofNat 0 := by
    refine parts_injective ?_
    change unpack .binary64 (pack .binary64
      (UnpackedFloat.mul .binary64 (parts (ofNat 0)) (parts (ofNat base)))) = _
    rw [parts_ofNat hpos hbase, hzero, UnpackedFloat.mul, unpack_pack_zero]
    rfl
  rw [hproduct]
  exact parts_injective rfl

/-- Zeros are gathered into the positive zero. -/
theorem gathered_zeros {base : Nat} (hpos : 0 < base) (hbase : base < 2 ^ 53) {ds : List Nat}
    (h : Bytes.valueOfDigits base ds = 0) : gathered base ds = ofNat 0 := by
  induction ds using List.reverseRecOn with
  | nil => rfl
  | append_singleton ds d ih =>
    rw [valueOfDigits_append, Nat.add_eq_zero_iff, Nat.mul_eq_zero] at h
    have hstep : gathered base (ds ++ [d]) = gathered base ds * ofNat base + ofNat d :=
      List.foldl_append
    rw [hstep, ih (h.1.resolve_right hpos.ne'), h.2, zero_mul_add_zero hpos hbase]

/-- Digits that come to at most 2^53 are gathered into the number of their value. -/
theorem gathered_eq_ofNat {base : Nat} (hpos : 0 < base) (hbase : base < 2 ^ 53) {ds : List Nat}
    (hds : ∀ d ∈ ds, d < base) (hvalue : Bytes.valueOfDigits base ds ≤ 2 ^ 53) :
    gathered base ds = ofNat (Bytes.valueOfDigits base ds) := by
  rcases Nat.eq_zero_or_pos (Bytes.valueOfDigits base ds) with hzero | hvpos
  · rw [gathered_zeros hpos hbase hzero, hzero]
  · exact eq_of_integer? hvpos (integer?_gathered hpos hbase.le hds hvalue) (integer?_ofNat hvalue)

/-- An integer of a base is read as its positional value. -/
theorem integer?_readInBase {base : Nat} (hpos : 0 < base) (hbase : base ≤ 2 ^ 53) {s : Bytes}
    {negative : Bool} {ds : List Nat} (hs : s ∈ integerOf base negative ds)
    (hvalue : |positional base negative ds| ≤ 2 ^ 53) :
    ∃ x, readInBase base s = some x ∧ integer? x = some (positional base negative ds) := by
  refine ⟨_, readInBase_of_mem hs, integer?_withSign negative ?_⟩
  obtain ⟨-, -, -, ⟨-, -, -, ⟨text, htext, -⟩, -⟩, -⟩ := hs
  refine integer?_gathered hpos hbase (worths_lt htext.2) ?_
  rw [Int.abs_eq_natAbs, natAbs_positional] at hvalue
  exact_mod_cast hvalue

end Number

/-! ## The library function -/

namespace Library

open Numeral Number

/-- With a base, the text of a string is read in that base. -/
theorem tonumber_in_base {args : List Value} {s : Bytes} {x : Float} {base : Nat}
    (hs : argument args 0 = .string s) (hx : (argument args 1).toNumber? = some x)
    (hbase : integer? x = some (base : Int)) (hmin : 2 ≤ base) (hmax : base ≤ 36) :
    tonumber args = .done [numberOrNil (readInBase base s)] := by
  have hpresent : (argument args 1).isNil = false := by
    cases h : argument args 1 with
    | nil =>
      rw [h] at hx
      cases hx
    | _ => rfl
  have hread : numberArgument (κ := FunctionCall) args 1 "tonumber" = .done x := by
    rw [numberArgument, hx]
  have hrange : 2 ≤ (base : Int) ∧ (base : Int) ≤ 36 := by omega
  simp only [tonumber, hpresent, hread, Bool.false_eq_true, if_false, bind, Program.bind, hbase,
    if_pos hrange, hs, Value.toText, Int.toNat_natCast]
  rfl

/-- With a base from 2 to 36 precisely the integers of that base are numbers: white space, a sign,
one or more digits each worth less than the base, in either case, and white space.  The number is
the positional value of the digits with that sign, as long as it is at most 2^53 in magnitude.
Every other string is answered with nil. -/
theorem tonumber_reads_integers {base : Nat} (hmin : 2 ≤ base) (hmax : base ≤ 36) (s : Bytes) :
    ((∃ x, tonumber [.string s, .ofNat base] = .done [.number x]) ↔
      ∃ negative ds, s ∈ integerOf base negative ds) ∧
    (∀ negative ds, s ∈ integerOf base negative ds → |positional base negative ds| ≤ 2 ^ 53 →
      ∃ x, tonumber [.string s, .ofNat base] = .done [.number x] ∧
        integer? x = some (positional base negative ds)) ∧
    ((¬ ∃ negative ds, s ∈ integerOf base negative ds) →
      tonumber [.string s, .ofNat base] = .done [.nil]) := by
  have hread : tonumber [.string s, .ofNat base] = .done [numberOrNil (readInBase base s)] :=
    tonumber_in_base rfl rfl (integer?_ofNat (by omega)) hmin hmax
  rw [hread, ← readInBase_isSome_iff]
  refine ⟨?_, fun negative ds hs hvalue => ?_, fun hnone => ?_⟩
  · cases readInBase base s with
    | none => simp [numberOrNil]
    | some x => simp [numberOrNil]
  · obtain ⟨x, hx, hinteger⟩ := integer?_readInBase (by omega) (by omega) hs hvalue
    exact ⟨x, by rw [hx]; rfl, hinteger⟩
  · rw [Option.not_isSome_iff_eq_none.1 hnone]
    rfl

/-- In base 36 the text ` -Zz` with a line feed behind it is the number -1295, and `Z z` is none. -/
theorem tonumber_reads_integers_of_base36 :
    (∃ x, tonumber [.string [0x20, 0x2d, 0x5a, 0x7a, 0x0a], .ofNat 36] = .done [.number x] ∧
      integer? x = some (-1295)) ∧
    tonumber [.string [0x5a, 0x20, 0x7a], .ofNat 36] = .done [.nil] := by
  have hspace : [0x20] ∈ blank := List.forall_mem_singleton.2 rfl
  have hfeed : [0x0a] ∈ blank := List.forall_mem_singleton.2 rfl
  have hdigits : [0x5a, 0x7a] ∈ digitsOf 36 [35, 35] := by decide +kernel
  have hmem : [0x20, 0x2d, 0x5a, 0x7a, 0x0a] ∈ integerOf 36 true [35, 35] :=
    ⟨_, hspace, _, ⟨[0x2d], rfl, _, ⟨_, hdigits, _, hfeed, rfl⟩, rfl⟩, rfl⟩
  have hnone : ¬ ∃ negative ds, [0x5a, 0x20, 0x7a] ∈ integerOf 36 negative ds := by
    rw [← readInBase_isSome_iff]
    decide
  exact ⟨(tonumber_reads_integers (by decide) (by decide) _).2.1 true [35, 35] hmem (by decide),
    (tonumber_reads_integers (by decide) (by decide) _).2.2 hnone⟩

end Library

end ScriptMachine
