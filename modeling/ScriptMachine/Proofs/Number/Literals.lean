import ScriptMachine.Proofs.Number.Digits

/-!
# Literals and words

The grammars of what may stand between the sign of a number and the white space behind it:
hexadecimal digits, decimal literals, and the words for infinity and for what is not a number.  Each
reader of such a text gives a number for the texts of its grammar and for no others.
-/

namespace ScriptMachine.Numeral

/-! ## Grammars -/

/-- The mark of hexadecimal digits: `0x` or `0X`. -/
def hexMark : Language UInt8 := {[0x30, 0x78], [0x30, 0x58]}

/-- A mark and one or more hexadecimal digits. -/
def hexadecimal : Language UInt8 := hexMark * digits 16

/-- A decimal point. -/
def point : Language UInt8 := {[0x2e]}

/-- Decimal digits, at least one, with an optional point before, among or behind them. -/
def mantissa : Language UInt8 := digits 10 * (1 + point * (1 + digits 10)) + point * digits 10

/-- The mark of an exponent: `e` or `E`. -/
def exponentMark : Language UInt8 := {[0x65], [0x45]}

/-- Nothing, or a mark, an optional sign and one or more digits. -/
def exponent : Language UInt8 := 1 + exponentMark * (sign * digits 10)

/-- A decimal literal. -/
def decimal : Language UInt8 := mantissa * exponent

/-- The spellings of a word in either case. -/
def inAnyCase (word : String) : Language UInt8 := {s | s.map Bytes.toLower = Bytes.ofString word}

/-- The words for infinity and for what is not a number, of which the last may have a tag. -/
def word : Language UInt8 :=
  inAnyCase "inf" + inAnyCase "infinity" + inAnyCase "nan" +
    inAnyCase "nan(" * (manyOf Number.isTagByte * {[0x29]})

/-- What may come between a hexadecimal mark and the digits: white space, a sign, a second mark. -/
def fieldHead : Language UInt8 := blank * (sign * (1 + hexMark))

/-! ## Classes of bytes -/

/-- A byte that is neither white space nor a sign. -/
def solid (b : UInt8) : Bool := !Bytes.isSpace b && unsigned b

/-- A byte that no hexadecimal mark ends with. -/
def unmarked (b : UInt8) : Bool := Bytes.toLower b != 0x78

/-- A decimal digit or a point. -/
def figure (b : UInt8) : Bool := Bytes.isDigit b || b == 0x2e

/-- A letter that a word begins with. -/
def initial (b : UInt8) : Bool := Bytes.toLower b == 0x69 || Bytes.toLower b == 0x6e

theorem of_solid {b : UInt8} (h : solid b = true) :
    (!Bytes.isSpace b) = true ∧ unsigned b = true :=
  Bool.and_eq_true _ _ ▸ h

theorem solid_of_isAlphanumeric {b : UInt8} (h : Bytes.isAlphanumeric b = true) :
    solid b = true := by
  rw [solid, (of_isAlphanumeric h).1, (of_isAlphanumeric h).2]
  rfl

theorem unmarked_of_isDigit {base : Nat} (hbase : base ≤ 16) {b : UInt8} {d : Nat}
    (h : IsDigit base b d) : unmarked b = true := by
  have hall : ∀ i : Fin 16, alphabet[i.val]? ≠ some 0x78 := by decide
  rw [unmarked, bne_iff_ne]
  intro hx
  exact hall ⟨d, h.1.trans_le hbase⟩ (hx ▸ h.2)

/-! ## Hexadecimal literals -/

theorem hexMark_cases {s : Bytes} (hs : s ∈ hexMark) :
    ∃ x, Bytes.toLower x = 0x78 ∧ s = [0x30, x] := by
  rcases hs with rfl | rfl
  · exact ⟨0x78, by decide, rfl⟩
  · exact ⟨0x58, by decide, rfl⟩

theorem takeHexMark?_append {mark s : Bytes} (hmark : mark ∈ hexMark) (hs : s ≠ []) :
    Number.takeHexMark? (mark ++ s) = some s := by
  obtain ⟨x, hx, rfl⟩ := hexMark_cases hmark
  exact if_pos ⟨hx, hs⟩

theorem exists_of_takeHexMark? {s field : Bytes} (h : Number.takeHexMark? s = some field) :
    ∃ mark ∈ hexMark, field ≠ [] ∧ s = mark ++ field := by
  have hcases : ∀ x, Bytes.toLower x = 0x78 → x = 0x78 ∨ x = 0x58 :=
    forall_byte (by decide +kernel)
  unfold Number.takeHexMark? at h
  split at h
  · rename_i x rest
    split at h
    · rename_i hx
      cases h
      refine ⟨[0x30, x], ?_, hx.2, rfl⟩
      rcases hcases x hx.1 with rfl | rfl
      · exact .inl rfl
      · exact .inr rfl
    · cases h
  · cases h

/-- What has no `x` in it has no mark. -/
theorem takeHexMark?_of_unmarked {s : Bytes} (hs : s ∈ manyOf unmarked) :
    Number.takeHexMark? s = none := by
  rcases h : Number.takeHexMark? s with _ | field
  · rfl
  obtain ⟨mark, hmark, -, rfl⟩ := exists_of_takeHexMark? h
  obtain ⟨x, hx, rfl⟩ := hexMark_cases hmark
  have hnot := hs x (by simp)
  rw [unmarked, bne_iff_ne] at hnot
  exact absurd hx hnot

/-- Hexadecimal digits are read in 64 bits, whatever of a sign or a second mark is before them. -/
theorem hexField?_of_mem {before mark second s : Bytes} {negative : Bool} {ds : List Nat}
    (hbefore : before ∈ blank) (hmark : mark ∈ signOf negative) (hsecond : second ∈ 1 + hexMark)
    (hs : s ∈ digitsOf 16 ds) :
    Number.hexField? (before ++ (mark ++ (second ++ s))) =
      some (if 2 ^ 64 ≤ Bytes.valueOfDigits 16 ds then 2 ^ 64 - 1
        else if negative then (2 ^ 64 - Bytes.valueOfDigits 16 ds) % 2 ^ 64
        else Bytes.valueOfDigits 16 ds) := by
  have hdigits := mem_digits_of_mem hs
  have hfirst : second ++ s ∈ beginning solid := by
    rcases (Language.mem_add _ _ _).1 hsecond with hnil | hsecond
    · rw [(Language.mem_one second).1 hnil, List.nil_append]
      exact beginning_mono (fun _ => solid_of_isAlphanumeric) (digits_ends hdigits).1
    · obtain ⟨x, hx, rfl⟩ := hexMark_cases hsecond
      exact ⟨0x30, x :: s, rfl, rfl⟩
  have hspace := sign_append_beginning (signOf_le_sign _ hmark)
    (beginning_mono (fun _ h => (of_solid h).1) hfirst)
  have hsign := takeSign_append hmark
    (beginning_mono (fun _ h => (of_solid h).2) hfirst)
  have hfield : (Number.takeHexMark? (second ++ s)).getD (second ++ s) = s := by
    rcases (Language.mem_add _ _ _).1 hsecond with hnil | hsecond
    · rw [(Language.mem_one second).1 hnil, List.nil_append, takeHexMark?_of_unmarked
        (manyOf_of_digits (fun _ _ => unmarked_of_isDigit le_rfl) hs.2)]
      rfl
    · rw [takeHexMark?_append hsecond (ne_nil_of_digits hdigits)]
      rfl
  have hread := readDigits_append hs.2 (stops_nil 16)
  rw [List.append_nil] at hread
  -- each stage of the reader now takes its own part off the front
  rw [Number.hexField?, trimLeft_append hbefore, trimLeft_of_beginning hspace, hsign]
  dsimp only
  rw [hfield, hread]
  dsimp only
  rw [if_neg (by simp [hs.1])]
  split
  · rfl
  · split <;> rfl

/-- A mark is taken off if there is one. -/
theorem exists_optional_mark (s : Bytes) :
    ∃ mark ∈ 1 + hexMark, s = mark ++ (Number.takeHexMark? s).getD s := by
  cases hfield : Number.takeHexMark? s with
  | none => exact ⟨[], (Language.mem_add _ _ _).2 (.inl rfl), rfl⟩
  | some field =>
    obtain ⟨mark, hmark, -, hs⟩ := exists_of_takeHexMark? hfield
    exact ⟨mark, (Language.mem_add _ _ _).2 (.inr hmark), hs⟩

theorem hexField?_isSome_iff {s : Bytes} :
    (Number.hexField? s).isSome ↔ s ∈ fieldHead * digits 16 := by
  constructor
  · intro h
    obtain ⟨before, hbefore, hs⟩ := exists_trimLeft s
    obtain ⟨mark, hmark, hsigned⟩ := exists_takeSign (Bytes.trimLeft s)
    obtain ⟨second, hsecond, hmarked⟩ :=
      exists_optional_mark (Number.takeSign (Bytes.trimLeft s)).2
    -- the stages of the reader take the text apart, and nothing is left of it
    obtain ⟨text, htext, hds, -⟩ := exists_readDigits 16
      ((Number.takeHexMark? (Number.takeSign (Bytes.trimLeft s)).2).getD
        (Number.takeSign (Bytes.trimLeft s)).2)
    rw [Number.hexField?] at h
    dsimp only at h
    split at h
    · cases h
    · rename_i hread
      rw [not_or, not_not] at hread
      rw [hread.2, List.append_nil] at htext
      have hwhole : s = before ++ (mark ++ second) ++ text := by
        rw [List.append_assoc, List.append_assoc, ← htext, ← hmarked, ← hsigned, ← hs]
      rw [hwhole]
      exact Language.append_mem_mul
        (Language.append_mem_mul hbefore
          (Language.append_mem_mul (signOf_le_sign _ hmark) hsecond))
        (mem_digits_of_mem ⟨hread.1, hds⟩)
  · intro hs
    obtain ⟨_, ⟨before, hbefore, _, ⟨mark, hmark, second, hsecond, rfl⟩, rfl⟩, t, ht, rfl⟩ := hs
    obtain ⟨negative, hmark⟩ := exists_signOf hmark
    obtain ⟨ds, hds⟩ := Language.mem_iSup.1 ht
    dsimp only
    rw [List.append_assoc, List.append_assoc, hexField?_of_mem hbefore hmark hsecond hds]
    rfl

/-! ## Decimal literals -/

theorem mem_exponentMark {e : UInt8} : [e] ∈ exponentMark ↔ Bytes.toLower e = 0x65 := by
  have hcases : ∀ e, e = 0x65 ∨ e = 0x45 ↔ Bytes.toLower e = 0x65 :=
    forall_byte (by decide +kernel)
  exact (or_congr List.singleton_inj List.singleton_inj).trans (hcases e)

theorem mem_exponent_iff {s : Bytes} :
    s ∈ exponent ↔ s = [] ∨ ∃ e mark t, Bytes.toLower e = 0x65 ∧ mark ∈ sign ∧ t ∈ digits 10 ∧
      s = e :: (mark ++ t) := by
  constructor
  · intro hs
    rcases (Language.mem_add _ _ _).1 hs with hnil | ⟨_, hletter, _, ⟨mark, hmark, t, ht, rfl⟩, rfl⟩
    · exact .inl ((Language.mem_one s).1 hnil)
    · rcases hletter with rfl | rfl
      · exact .inr ⟨0x65, mark, t, by decide, hmark, ht, rfl⟩
      · exact .inr ⟨0x45, mark, t, by decide, hmark, ht, rfl⟩
  · rintro (rfl | ⟨e, mark, t, he, hmark, ht, rfl⟩)
    · exact (Language.mem_add _ _ _).2 (.inl rfl)
    · exact (Language.mem_add _ _ _).2 (.inr (Language.append_mem_mul (mem_exponentMark.2 he)
        (Language.append_mem_mul hmark ht)))

theorem exponent?_isSome_iff {s : Bytes} : (Number.exponent? s).isSome ↔ s ∈ exponent := by
  rw [mem_exponent_iff]
  constructor
  · intro h
    unfold Number.exponent? at h
    split at h
    · exact .inl rfl
    · rename_i e rest
      obtain ⟨mark, hmark, hsigned⟩ := exists_takeSign rest
      obtain ⟨text, htext, hds, -⟩ := exists_readDigits 10 (Number.takeSign rest).2
      split at h
      · rename_i he
        dsimp only at h
        split at h
        · cases h
        · rename_i ds hne hread
          rw [hread] at htext hds
          rw [List.append_nil] at htext
          refine .inr ⟨e, mark, text, he, signOf_le_sign _ hmark, mem_digits_of_mem ⟨hne, hds⟩, ?_⟩
          rw [← htext, ← hsigned]
        · cases h
      · cases h
  · rintro (rfl | ⟨e, mark, t, he, hmark, ht, rfl⟩)
    · rfl
    · obtain ⟨negative, hmark⟩ := exists_signOf hmark
      have hsign := takeSign_append hmark
        (beginning_mono (fun _ h => (of_isAlphanumeric h).2) (digits_ends ht).1)
      obtain ⟨ds, hne, hds⟩ := Language.mem_iSup.1 ht
      have hread := readDigits_append hds (stops_nil 10)
      obtain ⟨d, ds, rfl⟩ := List.exists_cons_of_ne_nil hne
      rw [List.append_nil] at hread
      rw [Number.exponent?, if_pos he, hsign]
      dsimp only
      rw [hread]
      rfl

/-- Behind a mantissa, an exponent begins with neither a digit nor a point. -/
theorem exponent_stops {s : Bytes} (hs : s ∈ exponent) : Stops 10 s ∧ s.head? ≠ some 0x2e := by
  rcases mem_exponent_iff.1 hs with rfl | ⟨e, mark, t, he, -, -, rfl⟩
  · exact ⟨stops_nil 10, nofun⟩
  · refine ⟨stops_cons ?_, ?_⟩
    · rw [he]
      decide
    · rintro ⟨⟩
      exact absurd he (by decide)

/-- A mantissa is digits alone, or digits before and behind a point, of which there is one. -/
theorem mem_mantissa_iff {s : Bytes} :
    s ∈ mantissa ↔ (∃ ds, s ∈ digitsOf 10 ds) ∨
      ∃ whole fraction ds es, List.Forall₂ (IsDigit 10) whole ds ∧
        List.Forall₂ (IsDigit 10) fraction es ∧ ¬ (ds = [] ∧ es = []) ∧
        s = whole ++ 0x2e :: fraction := by
  constructor
  · intro hs
    rcases (Language.mem_add _ _ _).1 hs with
      ⟨whole, hwhole, rest, hrest, rfl⟩ | ⟨_, rfl, fraction, hfraction, rfl⟩
    · obtain ⟨ds, hds⟩ := Language.mem_iSup.1 hwhole
      rcases (Language.mem_add _ _ _).1 hrest with hnil | ⟨_, rfl, fraction, hfraction, rfl⟩
      · rw [(Language.mem_one rest).1 hnil]
        exact .inl ⟨ds, by simpa using hds⟩
      · obtain ⟨es, hes⟩ := mem_one_add_digits.1 hfraction
        exact .inr ⟨whole, fraction, ds, es, hds.2, hes, fun h => hds.1 h.1, rfl⟩
    · obtain ⟨es, hne, hes⟩ := Language.mem_iSup.1 hfraction
      exact .inr ⟨[], fraction, [], es, .nil, hes, fun h => hne h.2, rfl⟩
  · rintro (⟨ds, hds⟩ | ⟨whole, fraction, ds, es, hds, hes, hne, rfl⟩)
    · refine (Language.mem_add _ _ _).2 (.inl ?_)
      rw [← List.append_nil s]
      exact Language.append_mem_mul (mem_digits_of_mem hds) ((Language.mem_add _ _ _).2 (.inl rfl))
    · have hpoint : [0x2e] ∈ point := rfl
      by_cases hwhole : ds = []
      · subst hwhole
        rw [List.forall₂_nil_right_iff.1 hds, List.nil_append]
        exact (Language.mem_add _ _ _).2 (.inr (Language.append_mem_mul hpoint
          (mem_digits_of_mem ⟨fun h => hne ⟨rfl, h⟩, hes⟩)))
      · exact (Language.mem_add _ _ _).2 (.inl (Language.append_mem_mul
          (mem_digits_of_mem ⟨hwhole, hds⟩) ((Language.mem_add _ _ _).2 (.inr
            (Language.append_mem_mul hpoint (mem_one_add_digits.2 ⟨es, hes⟩))))))

/-- The digits behind a point, if a text begins with one, and what follows them. -/
def readFraction (s : Bytes) : List Nat × Bytes :=
  match s with
  | 0x2e :: tail => Bytes.readDigits 10 tail
  | _ => ([], s)

theorem decimal?_eq (s : Bytes) :
    Number.decimal? s =
      let (whole, rest) := Bytes.readDigits 10 s
      let (fraction, rest) := readFraction rest
      if whole = [] ∧ fraction = [] then none
      else (Number.exponent? rest).map fun e =>
        Number.ofDecimal (Bytes.valueOfDigits 10 (whole ++ fraction)) (e - fraction.length) :=
  rfl

theorem readFraction_point (tail : Bytes) :
    readFraction (0x2e :: tail) = Bytes.readDigits 10 tail :=
  rfl

theorem readFraction_of_ne {s : Bytes} (hs : s.head? ≠ some 0x2e) : readFraction s = ([], s) := by
  unfold readFraction
  split
  · exact absurd rfl hs
  · rfl

theorem exists_readFraction (s : Bytes) :
    readFraction s = ([], s) ∨
      ∃ text, s = 0x2e :: (text ++ (readFraction s).2) ∧
        List.Forall₂ (IsDigit 10) text (readFraction s).1 := by
  unfold readFraction
  split
  · rename_i tail
    obtain ⟨text, htext, hds, -⟩ := exists_readDigits 10 tail
    exact .inr ⟨text, congrArg _ htext, hds⟩
  · exact .inl rfl

theorem decimal?_isSome_iff {s : Bytes} : (Number.decimal? s).isSome ↔ s ∈ decimal := by
  constructor
  · intro h
    obtain ⟨whole, hwhole, hds, -⟩ := exists_readDigits 10 s
    rw [decimal?_eq] at h
    dsimp only at h
    split at h
    · cases h
    · rename_i hne
      rw [Option.isSome_map, exponent?_isSome_iff] at h
      rw [hwhole]
      rcases exists_readFraction (Bytes.readDigits 10 s).2 with hnone | ⟨text, htext, hes⟩
      · rw [hnone] at h hne
        exact Language.append_mem_mul
          (mem_mantissa_iff.2 (.inl ⟨_, fun h => hne ⟨h, rfl⟩, hds⟩)) h
      · rw [htext, ← List.cons_append, ← List.append_assoc]
        exact Language.append_mem_mul
          (mem_mantissa_iff.2 (.inr ⟨whole, text, _, _, hds, hes, hne, rfl⟩)) h
  · rintro ⟨s, hs, rest, hrest, rfl⟩
    obtain ⟨hstops, hpoint⟩ := exponent_stops hrest
    have hexponent := exponent?_isSome_iff.2 hrest
    dsimp only
    rcases mem_mantissa_iff.1 hs with ⟨ds, hds⟩ | ⟨whole, fraction, ds, es, hds, hes, hne, rfl⟩
    · rw [decimal?_eq, readDigits_append hds.2 hstops]
      dsimp only
      rw [readFraction_of_ne hpoint]
      dsimp only
      rw [if_neg fun h => hds.1 h.1, Option.isSome_map]
      exact hexponent
    · have hbefore : Stops 10 (0x2e :: (fraction ++ rest)) := stops_cons (by decide)
      rw [List.append_assoc, List.cons_append, decimal?_eq, readDigits_append hds hbefore]
      dsimp only
      rw [readFraction_point, readDigits_append hes hstops]
      dsimp only
      rw [if_neg hne, Option.isSome_map]
      exact hexponent

/-! ## Words -/

theorem toLower_eq_bracket : ∀ b, Bytes.toLower b = 0x29 ↔ b = 0x29 :=
  forall_byte (by decide +kernel)

theorem isTagByte_toLower : ∀ b, Number.isTagByte (Bytes.toLower b) = Number.isTagByte b :=
  forall_byte (by decide +kernel)

/-- A tag in brackets, as it is looked for in the small letters of a text. -/
theorem tagged_iff {s : Bytes} :
    ((s.map Bytes.toLower).take 4 = Bytes.ofString "nan(" ∧
        ((s.map Bytes.toLower).drop 4).getLast? = some (Bytes.ofChar ')') ∧
        ((s.map Bytes.toLower).drop 4).dropLast.all Number.isTagByte) ↔
      s ∈ inAnyCase "nan(" * (manyOf Number.isTagByte * {[0x29]}) := by
  rw [← List.map_take, ← List.map_drop, List.getLast?_map, ← List.map_dropLast, List.all_map]
  constructor
  · rintro ⟨hword, hlast, htag⟩
    obtain ⟨b, hb, hlower⟩ := Option.map_eq_some_iff.1 hlast
    obtain ⟨tag, hdrop⟩ := List.getLast?_eq_some_iff.1 hb
    obtain rfl : b = 0x29 := (toLower_eq_bracket b).1 hlower
    rw [hdrop, List.dropLast_concat, List.all_eq_true] at htag
    rw [← List.take_append_drop 4 s, hdrop]
    have htag : tag ∈ manyOf Number.isTagByte := fun b hb => isTagByte_toLower b ▸ htag b hb
    exact Language.append_mem_mul hword (Language.append_mem_mul htag rfl)
  · rintro ⟨name, hname, _, ⟨tag, htag, _, rfl, rfl⟩, rfl⟩
    have hlength : name.length = 4 := by
      rw [← List.length_map Bytes.toLower, show name.map Bytes.toLower = _ from hname]
      rfl
    dsimp only
    rw [List.take_left' hlength, List.drop_left' hlength, List.dropLast_concat]
    refine ⟨hname, by rw [List.getLast?_concat]; rfl, List.all_eq_true.2 fun b hb => ?_⟩
    exact (isTagByte_toLower b).trans (htag b hb)

theorem word?_isSome_iff {s : Bytes} : (Number.word? s).isSome ↔ s ∈ word := by
  have hword : s ∈ word ↔ ((s ∈ inAnyCase "inf" ∨ s ∈ inAnyCase "infinity") ∨ s ∈ inAnyCase "nan") ∨
      s ∈ inAnyCase "nan(" * (manyOf Number.isTagByte * {[0x29]}) := Iff.rfl
  rw [hword, ← tagged_iff, Number.word?]
  split
  · rename_i h
    exact iff_of_true rfl (.inl (.inl h))
  · rename_i hinf
    split
    · rename_i h
      exact iff_of_true rfl (.inl (.inr h))
    · rename_i hnan
      split
      · rename_i h
        exact iff_of_true rfl (.inr h)
      · rename_i htagged
        exact iff_of_false (by simp) (by rintro ((h | h) | h) <;> contradiction)

end ScriptMachine.Numeral
