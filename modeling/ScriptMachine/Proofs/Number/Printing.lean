import ScriptMachine.Operator.Evaluation
import ScriptMachine.Proofs.Number.Bases
import ScriptMachine.Proofs.Number.Numerals

/-!
# Integers written and read

An integer is written with a minus sign if it is negative and its decimal digits, of which the first
is a zero only if it is the only one.  All other decimal texts of the integer are longer.  Both
readers of decimal digits give the integer back, so that up to the limit of such texts an integer
and its text are interchangeable.
-/

namespace ScriptMachine

namespace Numeral

open Number (natAbs_positional worths_lt)

/-! ## Texts of an integer -/

/-- The decimal texts of an integer: white space, a sign, digits and white space. -/
def decimalOf (n : Int) : Language UInt8 :=
  {s | ∃ negative ds, s ∈ integerOf 10 negative ds ∧ positional 10 negative ds = n}

/-- The sign that an integer is written with: a minus sign, or nothing. -/
def leastSign (n : Int) : Language UInt8 := if n < 0 then {[0x2d]} else 1

/-- The plain text of an integer: no sign that it can do without, and digits of which the first is
no zero unless it is the only one. -/
def plainOf (n : Int) : Language UInt8 :=
  {s | ∃ ds, s ∈ leastSign n * digitsOf 10 ds ∧ positional 10 (decide (n < 0)) ds = n ∧
    (ds.head? = some 0 → ds = [0])}

theorem leastSign_le_signOf (n : Int) : leastSign n ≤ signOf (decide (n < 0)) := by
  intro s hs
  by_cases hn : n < 0
  · rw [leastSign, if_pos hn] at hs
    rw [decide_eq_true hn]
    exact hs
  · rw [leastSign, if_neg hn] at hs
    rw [decide_eq_false hn]
    exact .inl hs

/-- Nothing needs to stand around the digits. -/
theorem integerOf_of_plain {n : Int} {s : Bytes} {ds : List Nat}
    (hs : s ∈ leastSign n * digitsOf 10 ds) : s ∈ integerOf 10 (decide (n < 0)) ds := by
  obtain ⟨sign, hsign, t, ht, rfl⟩ := hs
  exact ⟨[], nil_mem_manyOf _, _, ⟨sign, leastSign_le_signOf n hsign, _,
    ⟨t, ht, [], nil_mem_manyOf _, List.append_nil t⟩, rfl⟩, rfl⟩

/-! ## Digits -/

/-- The decimal digits of a natural number, most significant first; zero has one digit. -/
def decimalDigits (n : Nat) : List Nat := if n = 0 then [0] else (Nat.digits 10 n).reverse

theorem isDigit_digitChar : ∀ d < 10, IsDigit 10 (Bytes.ofChar (Nat.digitChar d)) d := by
  decide +kernel

/-- A decimal digit is one byte only. -/
theorem eq_of_isDigit {b : UInt8} {d : Nat} (h : IsDigit 10 b d) :
    b = Bytes.ofChar (Nat.digitChar d) := by
  have hall : ∀ b, ∀ d : Fin 10, alphabet[d.val]? = some (Bytes.toLower b) →
      b = Bytes.ofChar (Nat.digitChar d) := forall_byte (by decide +kernel)
  exact hall b ⟨d, h.1⟩ h.2

theorem eq_map_of_digits {s : Bytes} {ds : List Nat} (h : List.Forall₂ (IsDigit 10) s ds) :
    s = ds.map fun d => Bytes.ofChar (Nat.digitChar d) := by
  induction h with
  | nil => rfl
  | cons hd _ ih => rw [List.map_cons, ← eq_of_isDigit hd, ← ih]

/-- The text of a natural number is made of its digits. -/
theorem ofNat_digits (n : Nat) :
    List.Forall₂ (IsDigit 10) (Bytes.ofNat n) (decimalDigits n) := by
  -- the last digit is split off on both sides
  induction n using Nat.strong_induction_on with
  | _ n ih =>
    by_cases hlt : n < 10
    · have hdigits : decimalDigits n = [n] := by interval_cases n <;> rfl
      rw [Bytes.ofNat, Nat.toDigits_of_lt_base hlt, hdigits]
      exact .cons (isDigit_digitChar n hlt) .nil
    · have hdigits : decimalDigits n = decimalDigits (n / 10) ++ [n % 10] := by
        rw [decimalDigits, decimalDigits, if_neg (by omega), if_neg (by omega),
          Nat.digits_def' (by decide) (by omega), List.reverse_cons]
      rw [Bytes.ofNat, Nat.toDigits_of_base_le (by decide) (by omega), List.map_append, hdigits]
      refine List.rel_append (ih (n / 10) (by omega)) ?_
      exact .cons (isDigit_digitChar (n % 10) (Nat.mod_lt n (by decide))) .nil

theorem decimalDigits_ne_nil (n : Nat) : decimalDigits n ≠ [] := by
  by_cases hzero : n = 0
  · simp [decimalDigits, hzero]
  · simp [decimalDigits, hzero, Nat.digits_ne_nil_iff_ne_zero]

theorem ofDigits_decimalDigits (n : Nat) : Nat.ofDigits 10 (decimalDigits n).reverse = n := by
  by_cases hzero : n = 0
  · simp [decimalDigits, hzero]
  · simp [decimalDigits, hzero, Nat.ofDigits_digits]

/-- Digits do not begin with a zero unless it is the only one. -/
theorem head_decimalDigits {n : Nat} (h : (decimalDigits n).head? = some 0) :
    decimalDigits n = [0] := by
  by_cases hzero : n = 0
  · rw [decimalDigits, if_pos hzero]
  · have hne : Nat.digits 10 n ≠ [] := Nat.digits_ne_nil_iff_ne_zero.2 hzero
    rw [decimalDigits, if_neg hzero, List.head?_reverse, List.getLast?_eq_some_getLast hne] at h
    exact absurd (Option.some.inj h) (Nat.getLast_digit_ne_zero 10 hzero)

/-- No other digits of the same value are as few. -/
theorem length_lt_of_plain {ds ds' : List Nat} (hds : ∀ d ∈ ds, d < 10)
    (hds' : ∀ d ∈ ds', d < 10) (hne : ds' ≠ []) (hhead : ds.head? = some 0 → ds = [0])
    (hvalue : Nat.ofDigits 10 ds.reverse = Nat.ofDigits 10 ds'.reverse) (hother : ds' ≠ ds) :
    ds.length < ds'.length := by
  have hrev : ∀ d ∈ ds.reverse, d < 10 := fun d hd => hds d (List.mem_reverse.1 hd)
  have hrev' : ∀ d ∈ ds'.reverse, d < 10 := fun d hd => hds' d (List.mem_reverse.1 hd)
  have hle : ds.length ≤ ds'.length := by
    by_cases hzero : ds.head? = some 0
    · rw [hhead hzero]
      exact List.length_pos_iff.2 hne
    · have hdigits : Nat.digits 10 (Nat.ofDigits 10 ds.reverse) = ds.reverse := by
        refine Nat.digits_ofDigits 10 (by decide) _ hrev fun hnil hlast => hzero ?_
        rw [← List.reverse_reverse ds, List.head?_reverse, List.getLast?_eq_some_getLast hnil,
          hlast]
      have hlt := Nat.ofDigits_lt_base_pow_length (b := 10) (by decide) hrev'
      rw [← hvalue, ← Nat.digits_length_le_iff (by decide), hdigits] at hlt
      simpa using hlt
  refine lt_of_le_of_ne hle fun hlength => hother (List.reverse_injective ?_)
  exact (Nat.ofDigits_inj_of_len_eq (by decide) (by simpa using hlength) hrev hrev' hvalue).symm

/-! ## The plain text is the shortest one -/

theorem ofInt_mem_plainOf (n : Int) : Bytes.ofInt n ∈ plainOf n := by
  have hdigits : ∀ m, Bytes.ofNat m ∈ digitsOf 10 (decimalDigits m) :=
    fun m => ⟨decimalDigits_ne_nil m, ofNat_digits m⟩
  refine ⟨decimalDigits n.natAbs, ?_, ?_, head_decimalDigits⟩
  · cases n with
    | ofNat m => exact ⟨[], rfl, _, hdigits m, rfl⟩
    | negSucc m =>
      have hsign : [0x2d] ∈ leastSign (Int.negSucc m) := by
        rw [leastSign, if_pos (Int.negSucc_lt_zero m)]
        rfl
      exact ⟨[0x2d], hsign, _, hdigits (m + 1), rfl⟩
  · rw [positional, ofDigits_decimalDigits]
    by_cases hn : n < 0
    · rw [decide_eq_true hn, if_pos rfl]
      omega
    · rw [decide_eq_false hn, if_neg Bool.false_ne_true]
      omega

/-- A sign that an integer of the given value is read with is the one that it is written with, or
longer. -/
theorem sign_of_positional {n : Int} {negative : Bool} {ds : List Nat} {sign sign' : Bytes}
    (hvalue : positional 10 negative ds = n) (hsign : sign ∈ leastSign n)
    (hsign' : sign' ∈ signOf negative) : sign' = sign ∨ sign.length < sign'.length := by
  by_cases hn : n < 0
  · rw [leastSign, if_pos hn] at hsign
    obtain rfl : sign = [0x2d] := hsign
    cases negative with
    | false =>
      have hpos : (0 : Int) ≤ positional 10 false ds := Int.natCast_nonneg _
      omega
    | true => exact .inl hsign'
  · rw [leastSign, if_neg hn] at hsign
    obtain rfl : sign = [] := hsign
    rcases sign_cases (signOf_le_sign _ hsign') with rfl | rfl | rfl <;> simp

/-- Every other decimal text of an integer is longer than its plain text. -/
theorem length_lt_of_mem_decimalOf {n : Int} {s t : Bytes} (hs : s ∈ plainOf n)
    (ht : t ∈ decimalOf n) (hne : t ≠ s) : s.length < t.length := by
  obtain ⟨ds, ⟨sign, hsign, text, htext, rfl⟩, hvalue, hhead⟩ := hs
  obtain ⟨negative, ds', ⟨before, hbefore, _, ⟨sign', hsign', _,
    ⟨text', htext', after, hafter, rfl⟩, rfl⟩, rfl⟩, hvalue'⟩ := ht
  have hsigns := sign_of_positional hvalue' hsign hsign'
  have hlength := htext.2.length_eq
  have hlength' := htext'.2.length_eq
  dsimp only at hne ⊢
  simp only [List.length_append]
  by_cases hds : ds' = ds
  · -- the digits are the same, so that something else stands around them
    have htexts : text' = text := by
      rw [eq_map_of_digits htext'.2, eq_map_of_digits htext.2, hds]
    subst htexts
    rcases hsigns with rfl | hlonger
    · have hsome : before ≠ [] ∨ after ≠ [] := by
        by_contra hnone
        rw [not_or, not_not, not_not] at hnone
        exact hne (by simp [hnone.1, hnone.2])
      rw [← List.length_pos_iff, ← List.length_pos_iff] at hsome
      omega
    · omega
  · have hmagnitude := natAbs_positional 10 (decide (n < 0)) ds
    have hmagnitude' := natAbs_positional 10 negative ds'
    rw [hvalue, Number.valueOfDigits_eq_ofDigits] at hmagnitude
    rw [hvalue', Number.valueOfDigits_eq_ofDigits] at hmagnitude'
    have hfewer := length_lt_of_plain (worths_lt htext.2) (worths_lt htext'.2) htext'.1 hhead
      (hmagnitude.symm.trans hmagnitude') hds
    have hsignLength : sign.length ≤ sign'.length := by
      rcases hsigns with rfl | hlonger
      · exact le_rfl
      · exact hlonger.le
    omega

end Numeral

namespace Number

open Numeral

/-! ## Numbers of integers -/

theorem ofInt_eq (n : Int) : ofInt n = withSign (decide (n < 0)) (ofNat n.natAbs) := by
  cases n with
  | ofNat n => rfl
  | negSucc n =>
    rw [decide_eq_true (Int.negSucc_lt_zero n)]
    rfl

theorem integer?_ofInt {n : Int} (hn : n.natAbs ≤ 2 ^ 53) : integer? (ofInt n) = some n := by
  have hnat := integer?_ofNat hn
  cases n with
  | ofNat n => exact hnat
  | negSucc n => exact integer?_neg hnat

/-- Below the limit an integer is written out. -/
theorem text_ofInt {n : Int} (hn : n.natAbs < integerLimit) : text (ofInt n) = Bytes.ofInt n := by
  have hlimit : integerLimit ≤ 2 ^ 53 := by decide
  rw [text, integer?_ofInt (hn.le.trans hlimit)]
  exact if_pos hn

/-! ## Reading decimal digits -/

theorem ofDecimal_zero (n : Nat) : ofDecimal n 0 = ofNat n := by
  by_cases hzero : n = 0
  · subst hzero
    exact parts_injective rfl
  · unfold ofDecimal
    rw [if_neg hzero, if_neg (by decide), if_neg (by omega)]
    rfl

/-- Decimal digits alone are a literal without a fraction and an exponent. -/
theorem decimal?_of_digits {s : Bytes} {ds : List Nat} (hs : s ∈ digitsOf 10 ds) :
    decimal? s = some (ofNat (Nat.ofDigits 10 ds.reverse)) := by
  have hread := readDigits_append hs.2 (stops_nil 10)
  rw [List.append_nil] at hread
  rw [decimal?_eq, hread]
  simp [readFraction, exponent?, hs.1, ofDecimal_zero, valueOfDigits_eq_ofDigits]

/-- A string of decimal digits is read as the number nearest to their value. -/
theorem ofNumeral?_of_integer {negative : Bool} {ds : List Nat} {s : Bytes}
    (hs : s ∈ integerOf 10 negative ds) :
    ofNumeral? s = some (withSign negative (ofNat (Nat.ofDigits 10 ds.reverse))) := by
  obtain ⟨before, hbefore, _, ⟨sign, hsign, _, ⟨text, htext, after, hafter, rfl⟩, rfl⟩, rfl⟩ := hs
  obtain ⟨hfirst, hlast⟩ := digits_ends (mem_digits_of_mem htext)
  have hbody := takeSign_trim hbefore hsign
    (beginning_mono (fun _ => solid_of_isAlphanumeric) hfirst)
    (ending_mono (fun _ => solid_of_isAlphanumeric) hlast) hafter
  have hunmarked := takeHexMark?_of_unmarked
    (manyOf_of_digits (fun _ _ => unmarked_of_isDigit (by decide)) htext.2)
  dsimp only
  rw [ofNumeral?, hbody]
  dsimp only
  rw [hunmarked]
  dsimp only
  rw [decimal?_of_digits htext]
  rfl

/-- With base ten, decimal digits are read as the number of their value up to 2^53. -/
theorem readInBase_of_integer {negative : Bool} {ds : List Nat} {s : Bytes}
    (hs : s ∈ integerOf 10 negative ds) (hvalue : Nat.ofDigits 10 ds.reverse ≤ 2 ^ 53) :
    readInBase 10 s = some (withSign negative (ofNat (Nat.ofDigits 10 ds.reverse))) := by
  have hds : ∀ d ∈ ds, d < 10 := by
    obtain ⟨-, -, -, ⟨-, -, -, ⟨text, htext, -⟩, -⟩, -⟩ := hs
    exact worths_lt htext.2
  rw [readInBase_of_mem hs]
  rw [← valueOfDigits_eq_ofDigits] at hvalue ⊢
  rw [gathered_eq_ofNat (by decide) (by decide) hds hvalue]

section Plain

variable {n : Int} {s : Bytes}

theorem withSign_positional {ds : List Nat} (h : positional 10 (decide (n < 0)) ds = n) :
    withSign (decide (n < 0)) (ofNat (Nat.ofDigits 10 ds.reverse)) = ofInt n := by
  have hmagnitude := natAbs_positional 10 (decide (n < 0)) ds
  rw [h, valueOfDigits_eq_ofDigits] at hmagnitude
  rw [ofInt_eq, hmagnitude]

/-- The plain text of an integer is read as the number nearest to it. -/
theorem ofNumeral?_of_plain (hs : s ∈ plainOf n) : ofNumeral? s = some (ofInt n) := by
  obtain ⟨ds, hds, hvalue, -⟩ := hs
  rw [ofNumeral?_of_integer (integerOf_of_plain hds), withSign_positional hvalue]

/-- With base ten, the plain text of an integer up to 2^53 is read as that integer. -/
theorem readInBase_of_plain (hs : s ∈ plainOf n) (hn : n.natAbs ≤ 2 ^ 53) :
    readInBase 10 s = some (ofInt n) := by
  obtain ⟨ds, hds, hvalue, -⟩ := hs
  have hmagnitude := natAbs_positional 10 (decide (n < 0)) ds
  rw [hvalue, valueOfDigits_eq_ofDigits] at hmagnitude
  rw [readInBase_of_integer (integerOf_of_plain hds) (hmagnitude ▸ hn),
    withSign_positional hvalue]

end Plain

end Number

/-! ## Operators -/

/-- A string may stand for its number beside another number. -/
theorem ArithmeticOp.eval_numeral {s : Bytes} {x : Float}
    (h : (Value.string s).toNumber? = some x) (op : ArithmeticOp) (y : Float) :
    op.eval (.string s) (.number y) = op.eval (.number x) (.number y) ∧
      op.eval (.number y) (.string s) = op.eval (.number y) (.number x) := by
  have hy : (Value.number y).toNumber? = some y := rfl
  constructor
  · simp [eval, onNumerals, h, hy]
  · simp [eval, onNumerals, h, hy]

namespace Value

open Numeral Number

/-- An integer below 10^15 in magnitude survives being written and read.  Its text is its plain
text, and the shortest of its decimal texts; the text stands for the integer as a numeral, to the
library with base ten, and beside a number in all operators. -/
theorem integer_survives_text {n : Int} (hn : |n| < 10 ^ 15) :
    integer? (Number.ofInt n) = some n ∧
    ∃ s, (ofInt n).toText = s ∧
      s ∈ plainOf n ∧ (∀ t ∈ decimalOf n, t ≠ s → s.length < t.length) ∧
      (string s).toNumber? = some (Number.ofInt n) ∧
      Library.tonumber [string s, ofNat 10] = .done [ofInt n] ∧
      ∀ (op : ArithmeticOp) (x : Float),
        op.eval (string s) (number x) = op.eval (ofInt n) (number x) ∧
        op.eval (number x) (string s) = op.eval (number x) (ofInt n) := by
  have hlimit : n.natAbs < 10 ^ 15 := by
    rw [Int.abs_eq_natAbs] at hn
    exact_mod_cast hn
  have hplain := ofInt_mem_plainOf n
  have hread : (string (Bytes.ofInt n)).toNumber? = some (Number.ofInt n) :=
    ofNumeral?_of_plain hplain
  have htonumber : Library.tonumber [string (Bytes.ofInt n), ofNat 10] = .done [ofInt n] := by
    rw [Library.tonumber_in_base rfl rfl (integer?_ofNat (n := 10) (by decide)) (by decide)
      (by decide), readInBase_of_plain hplain (by omega)]
    rfl
  exact ⟨integer?_ofInt (by omega), _, text_ofInt hlimit, hplain,
    fun t ht hne => length_lt_of_mem_decimalOf hplain ht hne, hread, htonumber,
    fun op x => ArithmeticOp.eval_numeral hread op x⟩

/-- The integer -1200 is written in five bytes, which both readers take for it. -/
theorem integer_survives_text_of_negative :
    |(-1200 : Int)| < 10 ^ 15 ∧
    (ofInt (-1200)).toText = [0x2d, 0x31, 0x32, 0x30, 0x30] ∧
    (string [0x2d, 0x31, 0x32, 0x30, 0x30]).toNumber? = some (Number.ofInt (-1200)) ∧
    Library.tonumber [string [0x2d, 0x31, 0x32, 0x30, 0x30], ofNat 10] =
      .done [ofInt (-1200)] := by
  have hbound : |(-1200 : Int)| < 10 ^ 15 := by decide
  obtain ⟨-, s, htext, -, -, hread, htonumber, -⟩ := integer_survives_text hbound
  have hs : s = [0x2d, 0x31, 0x32, 0x30, 0x30] := by
    rw [← htext, ofInt, toText, text_ofInt (by decide)]
    decide
  subst hs
  exact ⟨hbound, htext, hread, htonumber⟩

end Value

end ScriptMachine
