import Mathlib
import ScriptMachine.Number.Numeral

/-!
# Numerals as texts

The grammars of numerals are languages over bytes: white space, a sign, and digits of some base, of
which the language also notes what they are worth.  The readers of numbers take such texts apart in
one way only: what they take off the front is the longest text of its kind.
-/

namespace ScriptMachine.Numeral

/-! ## Languages -/

/-- The texts made of bytes of a class. -/
def manyOf (p : UInt8 → Bool) : Language UInt8 := {s | ∀ b ∈ s, p b = true}

/-- The texts whose first byte is of a class. -/
def beginning (p : UInt8 → Bool) : Language UInt8 := {s | ∃ b rest, s = b :: rest ∧ p b = true}

/-- The texts whose last byte is of a class. -/
def ending (p : UInt8 → Bool) : Language UInt8 := {s | ∃ front b, s = front ++ [b] ∧ p b = true}

/-- White space, or nothing. -/
def blank : Language UInt8 := manyOf Bytes.isSpace

/-- A minus sign, or else a plus sign or nothing. -/
def signOf (negative : Bool) : Language UInt8 := if negative then {[0x2d]} else {[], [0x2b]}

/-- An optional sign. -/
def sign : Language UInt8 := signOf false + signOf true

/-- The digits of all bases, in order. -/
def alphabet : Bytes := Bytes.ofString "0123456789abcdefghijklmnopqrstuvwxyz"

/-- A byte is a digit of a base, in either case, with its worth. -/
def IsDigit (base : Nat) (b : UInt8) (d : Nat) : Prop :=
  d < base ∧ alphabet[d]? = some (Bytes.toLower b)

/-- One or more digits of a base, with their worths. -/
def digitsOf (base : Nat) (ds : List Nat) : Language UInt8 :=
  {s | ds ≠ [] ∧ List.Forall₂ (IsDigit base) s ds}

/-- One or more digits of a base. -/
def digits (base : Nat) : Language UInt8 := ⨆ ds, digitsOf base ds

instance (base : Nat) (b : UInt8) (d : Nat) : Decidable (IsDigit base b d) :=
  inferInstanceAs (Decidable (_ ∧ _))

instance (base : Nat) (ds : List Nat) (s : Bytes) : Decidable (s ∈ digitsOf base ds) :=
  inferInstanceAs (Decidable (ds ≠ [] ∧ List.Forall₂ (IsDigit base) s ds))

/-! ## Bytes -/

/-- What holds of all bytes can be seen by going through them. -/
theorem forall_byte {P : UInt8 → Prop} (h : ∀ i : Fin 256, P (.ofFin i)) (b : UInt8) : P b :=
  h b.toFin

/-! ## First and last bytes -/

section Ends

variable {p q : UInt8 → Bool}

theorem beginning_mono (h : ∀ b, p b = true → q b = true) : beginning p ≤ beginning q := by
  rintro s ⟨b, rest, rfl, hb⟩
  exact ⟨b, rest, rfl, h b hb⟩

theorem ending_mono (h : ∀ b, p b = true → q b = true) : ending p ≤ ending q := by
  rintro s ⟨front, b, rfl, hb⟩
  exact ⟨front, b, rfl, h b hb⟩

theorem append_mem_beginning {s : Bytes} (hs : s ∈ beginning p) (t : Bytes) :
    s ++ t ∈ beginning p := by
  obtain ⟨b, rest, rfl, hb⟩ := hs
  exact ⟨b, rest ++ t, rfl, hb⟩

theorem append_mem_ending {t : Bytes} (s : Bytes) (ht : t ∈ ending p) : s ++ t ∈ ending p := by
  obtain ⟨front, b, rfl, hb⟩ := ht
  exact ⟨s ++ front, b, (List.append_assoc s front [b]).symm, hb⟩

theorem nil_mem_manyOf (p : UInt8 → Bool) : [] ∈ manyOf p := fun _ hb => nomatch hb

theorem append_mem_manyOf {s t : Bytes} (hs : s ∈ manyOf p) (ht : t ∈ manyOf p) :
    s ++ t ∈ manyOf p :=
  List.forall_mem_append.2 ⟨hs, ht⟩

/-- A text of bytes of a class begins and ends with one if it is not empty. -/
theorem manyOf_ends {s : Bytes} (hs : s ∈ manyOf p) (hne : s ≠ []) :
    s ∈ beginning p ∧ s ∈ ending p := by
  refine ⟨?_, s.dropLast, s.getLast hne, (List.dropLast_append_getLast hne).symm,
    hs _ (List.getLast_mem hne)⟩
  obtain ⟨b, rest, rfl⟩ := List.exists_cons_of_ne_nil hne
  exact ⟨b, rest, rfl, hs b List.mem_cons_self⟩

end Ends

/-! ## White space -/

theorem trimLeft_append {before s : Bytes} (hbefore : before ∈ blank) :
    Bytes.trimLeft (before ++ s) = Bytes.trimLeft s :=
  List.dropWhile_append_of_pos hbefore

theorem trimLeft_of_beginning {s : Bytes} (hs : s ∈ beginning fun b => !Bytes.isSpace b) :
    Bytes.trimLeft s = s := by
  obtain ⟨b, rest, rfl, hb⟩ := hs
  rw [Bool.not_eq_true'] at hb
  exact List.dropWhile_cons_of_neg (by simp [hb])

theorem trimLeft_eq_nil_iff {s : Bytes} : Bytes.trimLeft s = [] ↔ s ∈ blank :=
  List.dropWhile_eq_nil_iff

theorem exists_trimLeft (s : Bytes) : ∃ before ∈ blank, s = before ++ Bytes.trimLeft s :=
  ⟨s.takeWhile Bytes.isSpace, fun _ hb => List.mem_takeWhile_imp hb,
    List.takeWhile_append_dropWhile.symm⟩

theorem exists_trimRight (s : Bytes) : ∃ after ∈ blank, s = Bytes.trimRight s ++ after := by
  obtain ⟨before, hbefore, hs⟩ := exists_trimLeft s.reverse
  refine ⟨before.reverse, fun b hb => hbefore b (List.mem_reverse.1 hb), ?_⟩
  rw [Bytes.trimRight, ← List.reverse_append]
  exact List.reverse_eq_iff.1 hs

theorem trimRight_append {s after : Bytes} (hs : s ∈ ending fun b => !Bytes.isSpace b)
    (hafter : after ∈ blank) : Bytes.trimRight (s ++ after) = s := by
  obtain ⟨front, b, rfl, hb⟩ := hs
  have hreversed : after.reverse ∈ blank := fun b hb => hafter b (List.mem_reverse.1 hb)
  have hlast := trimLeft_of_beginning ⟨b, front.reverse, rfl, hb⟩
  rw [Bytes.trimRight, List.reverse_append, List.dropWhile_append_of_pos hreversed,
    List.reverse_append, List.reverse_singleton, List.singleton_append]
  rw [Bytes.trimLeft] at hlast
  rw [hlast, List.reverse_cons, List.reverse_reverse]

/-- White space is taken off both ends of a text that begins and ends with something else. -/
theorem trim_append {before s after : Bytes} (hbefore : before ∈ blank) (hafter : after ∈ blank)
    (hfirst : s ∈ beginning fun b => !Bytes.isSpace b)
    (hlast : s ∈ ending fun b => !Bytes.isSpace b) :
    Bytes.trim (before ++ (s ++ after)) = s := by
  rw [Bytes.trim, trimLeft_append hbefore,
    trimLeft_of_beginning (append_mem_beginning hfirst after), trimRight_append hlast hafter]

theorem exists_trim (s : Bytes) :
    ∃ before ∈ blank, ∃ after ∈ blank, s = before ++ (Bytes.trim s ++ after) := by
  obtain ⟨before, hbefore, hs⟩ := exists_trimLeft s
  obtain ⟨after, hafter, hmiddle⟩ := exists_trimRight (Bytes.trimLeft s)
  exact ⟨before, hbefore, after, hafter, by rw [Bytes.trim, ← hmiddle, ← hs]⟩

/-! ## Signs -/

/-- A byte that is no sign. -/
def unsigned (b : UInt8) : Bool := b != 0x2b && b != 0x2d

theorem takeSign_append {negative : Bool} {s t : Bytes} (hs : s ∈ signOf negative)
    (ht : t ∈ beginning unsigned) : Number.takeSign (s ++ t) = (negative, t) := by
  obtain ⟨b, rest, rfl, hb⟩ := ht
  rw [unsigned, Bool.and_eq_true, bne_iff_ne, bne_iff_ne] at hb
  cases negative with
  | true =>
    obtain rfl : s = [0x2d] := hs
    rfl
  | false =>
    obtain rfl | rfl : s = [] ∨ s = [0x2b] := hs
    · rw [List.nil_append, Number.takeSign]
      · exact fun _ h => hb.2 (List.cons.inj h).1
      · exact fun _ h => hb.1 (List.cons.inj h).1
    · rfl

theorem exists_takeSign (s : Bytes) :
    ∃ t ∈ signOf (Number.takeSign s).1, s = t ++ (Number.takeSign s).2 := by
  unfold Number.takeSign
  split
  · exact ⟨[0x2d], rfl, rfl⟩
  · exact ⟨[0x2b], .inr rfl, rfl⟩
  · exact ⟨[], .inl rfl, rfl⟩

theorem sign_cases {s : Bytes} (hs : s ∈ sign) : s = [] ∨ s = [0x2b] ∨ s = [0x2d] := by
  rcases (Language.mem_add _ _ _).1 hs with (rfl | rfl) | rfl
  · exact .inl rfl
  · exact .inr (.inl rfl)
  · exact .inr (.inr rfl)

theorem signOf_le_sign (negative : Bool) : signOf negative ≤ sign := by
  intro s hs
  cases negative with
  | false => exact (Language.mem_add _ _ _).2 (.inl hs)
  | true => exact (Language.mem_add _ _ _).2 (.inr hs)

theorem exists_signOf {s : Bytes} (hs : s ∈ sign) : ∃ negative, s ∈ signOf negative := by
  rcases (Language.mem_add _ _ _).1 hs with h | h
  · exact ⟨_, h⟩
  · exact ⟨_, h⟩

/-- Behind a sign or without one, what begins with neither white space nor a sign does not begin
with white space. -/
theorem sign_append_beginning {s t : Bytes} (hs : s ∈ sign)
    (ht : t ∈ beginning fun b => !Bytes.isSpace b) :
    s ++ t ∈ beginning fun b => !Bytes.isSpace b := by
  rcases sign_cases hs with rfl | rfl | rfl
  · exact ht
  · exact ⟨_, _, rfl, rfl⟩
  · exact ⟨_, _, rfl, rfl⟩

/-! ## Digits -/

/-- The worth of a byte is its place among the digits of all bases. -/
theorem digitValue?_eq_some_iff {b : UInt8} {d : Nat} :
    Bytes.digitValue? b = some d ↔ alphabet[d]? = some (Bytes.toLower b) := by
  have hplace : ∀ b, ∀ d ∈ Bytes.digitValue? b, alphabet[d]? = some (Bytes.toLower b) :=
    forall_byte (by decide +kernel)
  have hcase : ∀ b, Bytes.digitValue? (Bytes.toLower b) = Bytes.digitValue? b :=
    forall_byte (by decide +kernel)
  have hworths : alphabet.map Bytes.digitValue? = (List.range 36).map some := by decide +kernel
  refine ⟨hplace b d, fun h => ?_⟩
  have hd := congrArg (Option.map Bytes.digitValue?) h
  rw [← List.getElem?_map, hworths, List.getElem?_map, Option.map_some, hcase] at hd
  obtain ⟨place, hplace, hb⟩ := Option.map_eq_some_iff.1 hd
  obtain ⟨hlt, rfl⟩ := List.getElem?_eq_some_iff.1 hplace
  rw [← hb, List.getElem_range]

theorem digitBelow?_eq_some_iff {base : Nat} {b : UInt8} {d : Nat} :
    Bytes.digitBelow? base b = some d ↔ IsDigit base b d := by
  rw [Bytes.digitBelow?, Option.filter_eq_some_iff, digitValue?_eq_some_iff, decide_eq_true_eq,
    and_comm]
  rfl

/-- Digits of any base are letters or decimal digits. -/
theorem isAlphanumeric_of_isDigit {base : Nat} {b : UInt8} {d : Nat} (h : IsDigit base b d) :
    Bytes.isAlphanumeric b = true := by
  have hall : ∀ b, (Bytes.digitValue? b).isSome → Bytes.isAlphanumeric b = true :=
    forall_byte (by decide +kernel)
  have hworth := digitValue?_eq_some_iff.2 h.2
  exact hall b (Option.isSome_of_mem hworth)

/-- Letters and digits are neither white space nor a sign. -/
theorem of_isAlphanumeric {b : UInt8} (h : Bytes.isAlphanumeric b = true) :
    (!Bytes.isSpace b) = true ∧ unsigned b = true := by
  have hall : ∀ b, Bytes.isAlphanumeric b = true →
      (!Bytes.isSpace b) = true ∧ unsigned b = true := forall_byte (by decide +kernel)
  exact hall b h

/-- A text of digits is made of bytes of every class that all digits are of. -/
theorem manyOf_of_digits {base : Nat} {p : UInt8 → Bool} (hp : ∀ b d, IsDigit base b d → p b = true)
    {s : Bytes} {ds : List Nat} (hs : List.Forall₂ (IsDigit base) s ds) : s ∈ manyOf p := by
  induction hs with
  | nil => exact nil_mem_manyOf p
  | cons hd _ ih => exact List.forall_mem_cons.2 ⟨hp _ _ hd, ih⟩

theorem ne_nil_of_digits {base : Nat} {s : Bytes} (hs : s ∈ digits base) : s ≠ [] := by
  obtain ⟨ds, hne, hds⟩ := Language.mem_iSup.1 hs
  rintro rfl
  exact hne (List.forall₂_nil_left_iff.1 hds)

theorem mem_digits_of_mem {base : Nat} {ds : List Nat} {s : Bytes} (hs : s ∈ digitsOf base ds) :
    s ∈ digits base :=
  Language.mem_iSup.2 ⟨ds, hs⟩

/-- A text of digits begins and ends with a letter or a decimal digit. -/
theorem digits_ends {base : Nat} {s : Bytes} (hs : s ∈ digits base) :
    s ∈ beginning Bytes.isAlphanumeric ∧ s ∈ ending Bytes.isAlphanumeric := by
  obtain ⟨ds, -, hds⟩ := Language.mem_iSup.1 hs
  exact manyOf_ends (manyOf_of_digits (fun _ _ => isAlphanumeric_of_isDigit) hds)
    (ne_nil_of_digits hs)

/-- Digits, perhaps none, have their worths. -/
theorem mem_one_add_digits {base : Nat} {s : Bytes} :
    s ∈ 1 + digits base ↔ ∃ ds, List.Forall₂ (IsDigit base) s ds := by
  constructor
  · intro hs
    rcases (Language.mem_add _ _ _).1 hs with hnil | hs
    · exact ⟨[], by rw [(Language.mem_one s).1 hnil]; exact .nil⟩
    · obtain ⟨ds, -, hds⟩ := Language.mem_iSup.1 hs
      exact ⟨ds, hds⟩
  · rintro ⟨ds, hds⟩
    by_cases hne : ds = []
    · subst hne
      exact (Language.mem_add _ _ _).2 (.inl (List.forall₂_nil_right_iff.1 hds))
    · exact (Language.mem_add _ _ _).2 (.inr (mem_digits_of_mem ⟨hne, hds⟩))

/-- A text does not go on with a digit. -/
def Stops (base : Nat) (s : Bytes) : Prop := ∀ b d, s.head? = some b → ¬ IsDigit base b d

theorem stops_nil (base : Nat) : Stops base [] := nofun

theorem stops_cons {base : Nat} {b : UInt8} {rest : Bytes}
    (h : ∀ d : Fin base, alphabet[d.val]? ≠ some (Bytes.toLower b)) : Stops base (b :: rest) := by
  rintro _ d ⟨⟩ hd
  exact h ⟨d, hd.1⟩ hd.2

/-- Leading digits are read up to where they stop. -/
theorem readDigits_append {base : Nat} {s rest : Bytes} {ds : List Nat}
    (hs : List.Forall₂ (IsDigit base) s ds) (hrest : Stops base rest) :
    Bytes.readDigits base (s ++ rest) = (ds, rest) := by
  induction hs with
  | nil =>
    rw [List.nil_append]
    cases rest with
    | nil => rfl
    | cons b rest =>
      have hnone : Bytes.digitBelow? base b = none := Option.eq_none_iff_forall_ne_some.2
        fun d hd => hrest b d rfl (digitBelow?_eq_some_iff.1 hd)
      rw [Bytes.readDigits, hnone]
  | cons hd _ ih => rw [List.cons_append, Bytes.readDigits, digitBelow?_eq_some_iff.2 hd, ih]

theorem exists_readDigits (base : Nat) (s : Bytes) :
    ∃ t, s = t ++ (Bytes.readDigits base s).2 ∧
      List.Forall₂ (IsDigit base) t (Bytes.readDigits base s).1 ∧
      Stops base (Bytes.readDigits base s).2 := by
  fun_induction Bytes.readDigits base s with
  | case1 => exact ⟨[], rfl, .nil, stops_nil base⟩
  | case2 b rest d hd ds tail hread ih =>
    obtain ⟨t, hrest, hds, hstops⟩ := ih
    rw [hread] at hrest hds hstops
    exact ⟨b :: t, congrArg (b :: ·) hrest, .cons (digitBelow?_eq_some_iff.1 hd) hds, hstops⟩
  | case3 b rest hnone =>
    refine ⟨[], rfl, .nil, ?_⟩
    rintro _ d ⟨⟩ hd
    rw [digitBelow?_eq_some_iff.2 hd] at hnone
    cases hnone

end ScriptMachine.Numeral
