import ScriptMachine.Proofs.Number.Literals
import ScriptMachine.Value

/-!
# Which strings are numbers

A numeral is white space, an optional sign, a hexadecimal or decimal literal and white space.  All
numerals are read as numbers.  So are other strings, whose reading is left to readers with grammars
of their own: the words for infinity and for what is not a number, and hexadecimal digits with white
space, a sign or a second mark between them and their mark.  Nothing else is read.
-/

namespace ScriptMachine.Numeral

/-! ## Grammars -/

/-- White space, an optional sign, a body and white space. -/
def around (body : Language UInt8) : Language UInt8 := blank * (sign * (body * blank))

/-- An unsigned literal. -/
def literal : Language UInt8 := hexadecimal + decimal

/-- The strings that stand for numbers. -/
def numeral : Language UInt8 := around literal

/-- Something that may come between a mark and the digits, not nothing. -/
def strayHead : Language UInt8 := {head | head ∈ fieldHead ∧ head ≠ []}

/-- What is taken for a literal and is none. -/
def impostor : Language UInt8 := word + hexMark * (strayHead * digits 16)

/-- The strings that are read as numbers although they are no numerals. -/
def misread : Language UInt8 := around impostor

/-! ## First and last bytes of literals and words -/

theorem figure_of_isDigit {b : UInt8} {d : Nat} (h : IsDigit 10 b d) : figure b = true := by
  have hall : ∀ b, ∀ d : Fin 10, alphabet[d.val]? = some (Bytes.toLower b) → figure b = true :=
    forall_byte (by decide +kernel)
  exact hall b ⟨d, h.1⟩ h.2

theorem of_figure {b : UInt8} (h : figure b = true) :
    solid b = true ∧ unmarked b = true ∧ initial b = false := by
  have hall : ∀ b, figure b = true → solid b = true ∧ unmarked b = true ∧ initial b = false :=
    forall_byte (by decide +kernel)
  exact hall b h

theorem solid_of_initial : ∀ b, initial b = true → solid b = true :=
  forall_byte (by decide +kernel)

/-- A mantissa is made of decimal digits and a point. -/
theorem mantissa_figures {s : Bytes} (hs : s ∈ mantissa) : s ∈ manyOf figure ∧ s ≠ [] := by
  rcases mem_mantissa_iff.1 hs with ⟨ds, hds⟩ | ⟨whole, fraction, ds, es, hds, hes, -, rfl⟩
  · exact ⟨manyOf_of_digits (fun _ _ => figure_of_isDigit) hds.2,
      ne_nil_of_digits (mem_digits_of_mem hds)⟩
  · have hwhole := manyOf_of_digits (fun _ _ => figure_of_isDigit) hds
    have hfraction := manyOf_of_digits (fun _ _ => figure_of_isDigit) hes
    exact ⟨append_mem_manyOf hwhole (List.forall_mem_cons.2 ⟨rfl, hfraction⟩), by simp⟩

theorem decimal_ends {s : Bytes} (hs : s ∈ decimal) : s ∈ beginning figure ∧ s ∈ ending solid := by
  obtain ⟨m, hm, rest, hrest, rfl⟩ := hs
  obtain ⟨hfigures, hne⟩ := mantissa_figures hm
  obtain ⟨hfirst, hlast⟩ := manyOf_ends hfigures hne
  refine ⟨append_mem_beginning hfirst rest, ?_⟩
  rcases mem_exponent_iff.1 hrest with rfl | ⟨e, mark, t, -, -, ht, rfl⟩
  · dsimp only
    rw [List.append_nil]
    exact ending_mono (fun _ h => (of_figure h).1) hlast
  · exact append_mem_ending m (append_mem_ending (e :: mark)
      (ending_mono (fun _ => solid_of_isAlphanumeric) (digits_ends ht).2))

theorem decimal_unmarked {s : Bytes} (hs : s ∈ decimal) : s ∈ manyOf unmarked := by
  obtain ⟨m, hm, rest, hrest, rfl⟩ := hs
  have hmantissa : m ∈ manyOf unmarked :=
    fun b hb => (of_figure ((mantissa_figures hm).1 b hb)).2.1
  refine append_mem_manyOf hmantissa ?_
  rcases mem_exponent_iff.1 hrest with rfl | ⟨e, mark, t, he, hmark, ht, rfl⟩
  · exact nil_mem_manyOf _
  · have hletter : unmarked e = true := by
      rw [unmarked, he]
      rfl
    have hsign : mark ∈ manyOf unmarked := by
      rcases sign_cases hmark with rfl | rfl | rfl
      · exact nil_mem_manyOf _
      · exact List.forall_mem_singleton.2 rfl
      · exact List.forall_mem_singleton.2 rfl
    obtain ⟨ds, hds⟩ := Language.mem_iSup.1 ht
    have hdigits : t ∈ manyOf unmarked :=
      manyOf_of_digits (fun _ _ => unmarked_of_isDigit (by decide)) hds.2
    exact List.forall_mem_cons.2 ⟨hletter, append_mem_manyOf hsign hdigits⟩

theorem beginning_of_map {p : UInt8 → Bool} {s : Bytes} (hs : s.map Bytes.toLower ∈ beginning p) :
    s ∈ beginning fun b => p (Bytes.toLower b) := by
  obtain ⟨b, rest, hs, hb⟩ := hs
  obtain ⟨c, tail, rfl, rfl, -⟩ := List.map_eq_cons_iff.1 hs
  exact ⟨c, tail, rfl, hb⟩

theorem ending_of_map {p : UInt8 → Bool} {s : Bytes} (hs : s.map Bytes.toLower ∈ ending p) :
    s ∈ ending fun b => p (Bytes.toLower b) := by
  obtain ⟨front, b, hs, hb⟩ := hs
  obtain ⟨f, t, rfl, -, ht⟩ := List.map_eq_append_iff.1 hs
  obtain ⟨c, rfl, rfl⟩ := List.map_eq_singleton_iff.1 ht
  exact ⟨f, c, rfl, hb⟩

theorem word_ends {s : Bytes} (hs : s ∈ word) : s ∈ beginning initial ∧ s ∈ ending solid := by
  have hinitial : ∀ b, initial (Bytes.toLower b) = true → initial b = true :=
    forall_byte (by decide +kernel)
  have hsolid : ∀ b, solid (Bytes.toLower b) = true → solid b = true :=
    forall_byte (by decide +kernel)
  have hfirst : ∀ t : Bytes, t.map Bytes.toLower ∈ beginning initial → t ∈ beginning initial :=
    fun t ht => beginning_mono hinitial (beginning_of_map ht)
  have hlast : ∀ t : Bytes, t.map Bytes.toLower ∈ ending solid → t ∈ ending solid :=
    fun t ht => ending_mono hsolid (ending_of_map ht)
  rcases hs with ((hs | hs) | hs) | ⟨name, hname, _, ⟨tag, -, _, rfl, rfl⟩, rfl⟩
  · exact ⟨hfirst s ⟨0x69, _, hs, rfl⟩, hlast s ⟨[0x69, 0x6e], 0x66, hs, rfl⟩⟩
  · exact ⟨hfirst s ⟨0x69, _, hs, rfl⟩,
      hlast s ⟨[0x69, 0x6e, 0x66, 0x69, 0x6e, 0x69, 0x74], 0x79, hs, rfl⟩⟩
  · exact ⟨hfirst s ⟨0x6e, _, hs, rfl⟩, hlast s ⟨[0x6e, 0x61], 0x6e, hs, rfl⟩⟩
  · exact ⟨append_mem_beginning (hfirst name ⟨0x6e, _, hname, rfl⟩) _,
      append_mem_ending name (append_mem_ending tag ⟨[], 0x29, rfl, rfl⟩)⟩

/-! ## Bodies -/

/-- Before the digits of a field there is nothing, or something stray. -/
theorem fieldHead_eq : fieldHead = 1 + strayHead := by
  have hunsigned : [] ∈ sign * (1 + hexMark) := ⟨[], .inl (.inl rfl), [], .inl rfl, rfl⟩
  have hnil : [] ∈ fieldHead := ⟨[], nil_mem_manyOf _, [], hunsigned, rfl⟩
  ext head
  rw [Language.mem_add, Language.mem_one]
  constructor
  · intro h
    by_cases hne : head = []
    · exact .inl hne
    · exact .inr ⟨h, hne⟩
  · rintro (rfl | h)
    · exact hnil
    · exact h.1

/-- White space and a sign are taken off a body. -/
theorem takeSign_trim {before mark body after : Bytes} {negative : Bool} (hbefore : before ∈ blank)
    (hmark : mark ∈ signOf negative) (hfirst : body ∈ beginning solid) (hlast : body ∈ ending solid)
    (hafter : after ∈ blank) :
    Number.takeSign (Bytes.trim (before ++ (mark ++ (body ++ after)))) = (negative, body) := by
  have hspace := sign_append_beginning (signOf_le_sign _ hmark)
    (beginning_mono (fun _ h => (of_solid h).1) hfirst)
  have hend : mark ++ body ∈ ending fun b => !Bytes.isSpace b :=
    append_mem_ending mark (ending_mono (fun _ h => (of_solid h).1) hlast)
  rw [← List.append_assoc mark, trim_append hbefore hafter hspace hend]
  exact takeSign_append hmark (beginning_mono (fun _ h => (of_solid h).2) hfirst)

theorem mem_around_iff {body : Language UInt8} (hfirst : body ≤ beginning solid)
    (hlast : body ≤ ending solid) {s : Bytes} :
    s ∈ around body ↔ (Number.takeSign (Bytes.trim s)).2 ∈ body := by
  constructor
  · rintro ⟨before, hbefore, _, ⟨mark, hmark, _, ⟨t, ht, after, hafter, rfl⟩, rfl⟩, rfl⟩
    obtain ⟨negative, hmark⟩ := exists_signOf hmark
    dsimp only
    rw [takeSign_trim hbefore hmark (hfirst ht) (hlast ht) hafter]
    exact ht
  · intro h
    obtain ⟨before, hbefore, after, hafter, hs⟩ := exists_trim s
    obtain ⟨mark, hmark, hsigned⟩ := exists_takeSign (Bytes.trim s)
    rw [hs, hsigned, List.append_assoc]
    exact Language.append_mem_mul hbefore (Language.append_mem_mul (signOf_le_sign _ hmark)
      (Language.append_mem_mul h hafter))

theorem takeHexMark?_of_word {s : Bytes} (hs : s ∈ word) : Number.takeHexMark? s = none := by
  rcases h : Number.takeHexMark? s with _ | field
  · rfl
  obtain ⟨_, hmark, -, rfl⟩ := exists_of_takeHexMark? h
  obtain ⟨x, -, rfl⟩ := hexMark_cases hmark
  obtain ⟨b, rest, ⟨⟩, hb⟩ := (word_ends hs).1
  cases hb

/-- What is read between a sign and the white space behind is either a literal or none. -/
theorem body_eq : hexMark * (fieldHead * digits 16) + (decimal + word) = literal + impostor := by
  rw [fieldHead_eq, literal, impostor, hexadecimal]
  simp only [add_mul, mul_add, one_mul]
  abel

/-- Texts with a mark are those of which the mark can be taken. -/
theorem mem_hexMark_mul_iff {head : Language UInt8} {s : Bytes} :
    s ∈ hexMark * (head * digits 16) ↔
      ∃ field ∈ head * digits 16, Number.takeHexMark? s = some field := by
  constructor
  · rintro ⟨mark, hmark, _, ⟨h, hh, t, ht, rfl⟩, rfl⟩
    exact ⟨h ++ t, Language.append_mem_mul hh ht, takeHexMark?_append hmark
      (List.append_ne_nil_of_right_ne_nil h (ne_nil_of_digits ht))⟩
  · rintro ⟨field, hfield, h⟩
    obtain ⟨mark, hmark, -, rfl⟩ := exists_of_takeHexMark? h
    exact Language.append_mem_mul hmark hfield

theorem hex_ends {head : Language UInt8} {s : Bytes} (hs : s ∈ hexMark * (head * digits 16)) :
    s ∈ beginning figure ∧ s ∈ ending solid := by
  obtain ⟨_, hmark, _, ⟨h, -, t, ht, rfl⟩, rfl⟩ := hs
  obtain ⟨x, -, rfl⟩ := hexMark_cases hmark
  exact ⟨⟨0x30, _, rfl, rfl⟩, append_mem_ending [0x30, x] (append_mem_ending h
    (ending_mono (fun _ => solid_of_isAlphanumeric) (digits_ends ht).2))⟩

theorem literal_ends {s : Bytes} (hs : s ∈ literal) : s ∈ beginning figure ∧ s ∈ ending solid := by
  rcases (Language.mem_add _ _ _).1 hs with hs | hs
  · rw [hexadecimal, ← one_mul (digits 16)] at hs
    exact hex_ends hs
  · exact decimal_ends hs

theorem impostor_ends {s : Bytes} (hs : s ∈ impostor) : s ∈ beginning solid ∧ s ∈ ending solid := by
  rcases (Language.mem_add _ _ _).1 hs with hs | hs
  · exact ⟨beginning_mono solid_of_initial (word_ends hs).1, (word_ends hs).2⟩
  · exact ⟨beginning_mono (fun _ h => (of_figure h).1) (hex_ends hs).1, (hex_ends hs).2⟩

theorem mem_numeral_iff {s : Bytes} :
    s ∈ numeral ↔ (Number.takeSign (Bytes.trim s)).2 ∈ literal :=
  mem_around_iff (fun _ h => beginning_mono (fun _ h => (of_figure h).1) (literal_ends h).1)
    (fun _ h => (literal_ends h).2)

theorem mem_misread_iff {s : Bytes} :
    s ∈ misread ↔ (Number.takeSign (Bytes.trim s)).2 ∈ impostor :=
  mem_around_iff (fun _ h => (impostor_ends h).1) (fun _ h => (impostor_ends h).2)

/-- Nothing but digits stands before digits. -/
theorem append_not_mem_digits {head t : Bytes} (hhead : head ∈ strayHead) :
    head ++ t ∉ digits 16 := by
  intro h
  obtain ⟨ds, -, hds⟩ := Language.mem_iSup.1 h
  obtain ⟨⟨before, hbefore, _, ⟨mark, hmark, second, hsecond, rfl⟩, rfl⟩, hne⟩ := hhead
  have hsolid := manyOf_of_digits
    (fun _ _ hd => solid_of_isAlphanumeric (isAlphanumeric_of_isDigit hd)) hds
  have hunmarked := manyOf_of_digits (fun _ _ => unmarked_of_isDigit le_rfl) hds
  -- the first byte of the head shows it, or the second one of a mark
  rcases before with _ | ⟨b, before⟩
  · rcases sign_cases hmark with rfl | rfl | rfl
    · rcases (Language.mem_add _ _ _).1 hsecond with hnil | hsecond
      · exact hne ((Language.mem_one second).1 hnil)
      · obtain ⟨x, hx, rfl⟩ := hexMark_cases hsecond
        have hnot := hunmarked x (by simp)
        rw [unmarked, hx] at hnot
        cases hnot
    · cases hsolid 0x2b (by simp)
    · cases hsolid 0x2d (by simp)
  · have hnot := (of_solid (hsolid b (by simp))).1
    rw [hbefore b List.mem_cons_self] at hnot
    cases hnot

/-- No literal is read by another grammar. -/
theorem not_impostor_of_literal {s : Bytes} (hs : s ∈ literal) : s ∉ impostor := by
  intro h
  rcases (Language.mem_add _ _ _).1 h with h | h
  · obtain ⟨b, rest, rfl, hb⟩ := (literal_ends hs).1
    obtain ⟨_, _, ⟨⟩, hinitial⟩ := (word_ends h).1
    rw [(of_figure hb).2.2] at hinitial
    cases hinitial
  · obtain ⟨_, ⟨head, hhead, t, -, rfl⟩, hfield⟩ := mem_hexMark_mul_iff.1 h
    rcases (Language.mem_add _ _ _).1 hs with hs | hs
    · rw [hexadecimal, ← one_mul (digits 16)] at hs
      obtain ⟨field, hdigits, hsame⟩ := mem_hexMark_mul_iff.1 hs
      rw [one_mul] at hdigits
      obtain rfl := Option.some.inj (hsame.symm.trans hfield)
      exact append_not_mem_digits hhead hdigits
    · rw [takeHexMark?_of_unmarked (decimal_unmarked hs)] at hfield
      cases hfield

/-! ## Acceptance -/

theorem ofNumeral?_isSome_iff {s : Bytes} :
    (Number.ofNumeral? s).isSome ↔
      (Number.takeSign (Bytes.trim s)).2 ∈ literal + impostor := by
  rw [← body_eq, Number.ofNumeral?]
  dsimp only
  rw [Option.isSome_map]
  generalize (Number.takeSign (Bytes.trim s)).2 = body
  rw [Language.mem_add, Language.mem_add, mem_hexMark_mul_iff]
  cases h : Number.takeHexMark? body with
  | some field =>
    have hdecimal : body ∉ decimal := fun hs => by
      rw [takeHexMark?_of_unmarked (decimal_unmarked hs)] at h
      cases h
    have hword : body ∉ word := fun hs => by
      rw [takeHexMark?_of_word hs] at h
      cases h
    dsimp only
    rw [Option.isSome_map, hexField?_isSome_iff]
    simp [hdecimal, hword]
  | none =>
    dsimp only
    rw [Option.isSome_or, Bool.or_eq_true, decimal?_isSome_iff, word?_isSome_iff]
    simp

end ScriptMachine.Numeral

namespace ScriptMachine.Value

open Numeral

/-- A string is a number if it is a numeral or one of the misread strings, and not otherwise; none
is both.  So strings are numbers just as far as they are numerals, the misread ones aside. -/
theorem string_isNumber_iff (s : Bytes) :
    ((Value.string s).toNumber?.isSome ↔ s ∈ numeral ∨ s ∈ misread) ∧
      ¬ (s ∈ numeral ∧ s ∈ misread) := by
  rw [mem_numeral_iff, mem_misread_iff]
  exact ⟨ofNumeral?_isSome_iff.trans (Language.mem_add _ _ _),
    fun h => not_impostor_of_literal h.1 h.2⟩

/-- The word `inf` and the text `0x-5` are numbers, and neither is a numeral. -/
theorem misread_strings :
    (Value.string (Bytes.ofString "inf")).toNumber?.isSome ∧ Bytes.ofString "inf" ∉ numeral ∧
    (Value.string (Bytes.ofString "0x-5")).toNumber?.isSome ∧ Bytes.ofString "0x-5" ∉ numeral := by
  have hword : Bytes.ofString "inf" ∈ word := .inl (.inl (.inl rfl))
  have hinf : Bytes.ofString "inf" ∈ impostor := (Language.mem_add _ _ _).2 (.inl hword)
  have hminus : [0x2d] ∈ strayHead :=
    ⟨⟨[], nil_mem_manyOf _, [0x2d], ⟨[0x2d], .inr rfl, [], .inl rfl, rfl⟩, rfl⟩, by simp⟩
  have hmark : [0x30, 0x78] ∈ hexMark := .inl rfl
  have hworth : [0x35] ∈ digitsOf 16 [5] := by decide +kernel
  have hfive := mem_digits_of_mem hworth
  have hhex : Bytes.ofString "0x-5" ∈ impostor := (Language.mem_add _ _ _).2 (.inr
    (Language.append_mem_mul hmark (Language.append_mem_mul hminus hfive)))
  refine ⟨by decide, ?_, by decide, ?_⟩
  · rw [mem_numeral_iff]
    exact fun h => not_impostor_of_literal h hinf
  · rw [mem_numeral_iff]
    exact fun h => not_impostor_of_literal h hhex

end ScriptMachine.Value
