import Mathlib
import ScriptMachine.Proofs.Bytecode.Counts

/-!
# Blocks that are passed over

The type annotations of a prototype, the names of the host's types and the names of variables have
formats of their own, given here as languages of bytes.  A reader *passes* a language when it takes
exactly the words of it: whatever it takes is in the language, and whatever is in the language is
taken to its end and no further, whatever follows.  Each reader of a block passes the language of
the block, be there a length at its front, a terminator at its end, or counts of items in it.
-/

namespace ScriptMachine

open Computability

/-! ## Bytes between cursors -/

/-- The bytes stand between a cursor and a later one. -/
structure Cursor.Spans (c : Cursor) (bytes : Bytes) (c' : Cursor) : Prop where
  /-- They are left at the first, and behind them what is left at the second. -/
  rest : c.rest = bytes ++ c'.rest
  /-- They have been read at the second. -/
  position : c'.position = c.position + bytes.length

namespace Cursor

variable {c c₁ c₂ : Cursor} {bytes bytes' : Bytes}

theorem Spans.refl (c : Cursor) : c.Spans [] c := ⟨rfl, rfl⟩

theorem Spans.trans (h : c.Spans bytes c₁) (h' : c₁.Spans bytes' c₂) :
    c.Spans (bytes ++ bytes') c₂ where
  rest := by rw [h.rest, h'.rest, List.append_assoc]
  position := by rw [h'.position, h.position, List.length_append, Nat.add_assoc]

theorem Spans.remaining_eq (h : c.Spans bytes c₁) :
    c.remaining = bytes.length + c₁.remaining := by
  rw [remaining, h.rest, List.length_append, remaining]

end Cursor

namespace Reader

/-! ## Readers and languages -/

/-- The reader takes the words of a language that depends on what it gives, and nothing else. -/
structure Accepts {α : Type} (r : Reader α) (L : α → Language UInt8) : Prop where
  /-- It takes the words. -/
  reads {a : α} {bytes : Bytes} : bytes ∈ L a → Reads r bytes a
  /-- It takes nothing else. -/
  ensures (c : Cursor) : Ensures r c fun a c' => ∃ bytes ∈ L a, c.Spans bytes c'

/-- The reader takes the words of a language, whatever it gives, and nothing else. -/
structure Passes {α : Type} (r : Reader α) (L : Language UInt8) : Prop where
  /-- It takes the words. -/
  reads {bytes : Bytes} : bytes ∈ L → ∃ a, Reads r bytes a
  /-- It takes nothing else. -/
  ensures (c : Cursor) : Ensures r c fun _ c' => ∃ bytes ∈ L, c.Spans bytes c'

/-- What the reader has taken it would take whatever followed. -/
def Exact {α : Type} (r : Reader α) : Prop := Accepts r fun a => {bytes | Reads r bytes a}

section Sequence

variable {α β : Type} {r : Reader α} {f : α → Reader β} {L L' : Language UInt8}
  {F : α → Language UInt8} {c c' : Cursor} {bytes : Bytes} {a : α}

theorem Accepts.passes (h : Accepts r F) : Passes r (⨆ a, F a) where
  reads hbytes := by
    obtain ⟨a, ha⟩ := Language.mem_iSup.1 hbytes
    exact ⟨a, h.reads ha⟩
  ensures c := (h.ensures c).mono fun a _ ⟨bytes, hbytes, hspans⟩ =>
    ⟨bytes, Language.mem_iSup.2 ⟨a, hbytes⟩, hspans⟩

/-- What comes next may depend on what a reader gives. -/
theorem Accepts.bind {G : α → Language UInt8} (h : Accepts r F) (hf : ∀ a, Passes (f a) (G a)) :
    Passes (r >>= f) (⨆ a, F a * G a) where
  reads hbytes := by
    obtain ⟨a, ha⟩ := Language.mem_iSup.1 hbytes
    obtain ⟨first, hfirst, others, hothers, rfl⟩ := Language.mem_mul.1 ha
    obtain ⟨b, hb⟩ := (hf a).reads hothers
    exact ⟨b, (h.reads hfirst).bind hb⟩
  ensures c := by
    refine .bind fun a c₁ hr b c₂ hrun => ?_
    obtain ⟨first, hfirst, hspans⟩ := h.ensures c a c₁ hr
    obtain ⟨others, hothers, hspans'⟩ := (hf a).ensures c₁ b c₂ hrun
    exact ⟨first ++ others, Language.mem_iSup.2 ⟨a, Language.append_mem_mul hfirst hothers⟩,
      hspans.trans hspans'⟩

theorem Passes.bind (h : Passes r L) (hf : ∀ a, Passes (f a) L') : Passes (r >>= f) (L * L') where
  reads hbytes := by
    obtain ⟨first, hfirst, others, hothers, rfl⟩ := Language.mem_mul.1 hbytes
    obtain ⟨a, ha⟩ := h.reads hfirst
    obtain ⟨b, hb⟩ := (hf a).reads hothers
    exact ⟨b, ha.bind hb⟩
  ensures c := by
    refine .bind fun a c₁ hr b c₂ hrun => ?_
    obtain ⟨first, hfirst, hspans⟩ := h.ensures c a c₁ hr
    obtain ⟨others, hothers, hspans'⟩ := (hf a).ensures c₁ b c₂ hrun
    exact ⟨first ++ others, Language.append_mem_mul hfirst hothers, hspans.trans hspans'⟩

theorem passes_pure (a : α) : Passes (pure a : Reader α) 1 where
  reads hbytes := by
    rw [Language.mem_one] at hbytes
    rw [hbytes]
    exact ⟨a, Reads.pure a⟩
  ensures c := .pure ⟨[], Language.nil_mem_one, .refl c⟩

theorem Passes.map (h : Passes r L) (g : α → β) : Passes (do return g (← r)) L := by
  have hbind := h.bind fun a => passes_pure (g a)
  rwa [mul_one] at hbind

end Sequence

/-! ## Bytes and words -/

theorem accepts_byte : Accepts byte fun b => {[b]} where
  reads hbytes := by
    cases hbytes
    exact reads_byte _
  ensures c b c' hrun := by
    obtain ⟨position, rest, rfl, rfl⟩ := ensures_byte c b c' hrun
    exact ⟨[b], rfl, rfl, rfl⟩

theorem ensures_take (n : Nat) (c : Cursor) :
    Ensures (take n) c fun bytes c' => bytes.length = n ∧ c.Spans bytes c' := by
  intro bytes c' hrun
  rw [take] at hrun
  split at hrun
  · rename_i first rest hsplit
    cases hrun
    obtain ⟨hrest, rfl⟩ := split?_eq hsplit
    exact ⟨rfl, hrest, rfl⟩
  · cases hrun

/-- All parts of a module have exact readers. -/
theorem modular_exact : Modular @Exact where
  pure a := ⟨id, fun c => .pure ⟨[], Reads.pure a, .refl c⟩⟩
  throw _ := ⟨id, fun _ _ _ hrun => nomatch hrun⟩
  bind h hf := ⟨id, fun c => .bind fun a c₁ hr b c₂ hrun => by
    obtain ⟨first, hfirst, hspans⟩ := h.ensures c a c₁ hr
    obtain ⟨others, hothers, hspans'⟩ := (hf a).ensures c₁ b c₂ hrun
    exact ⟨first ++ others, hfirst.bind hothers, hspans.trans hspans'⟩⟩
  byte := ⟨id, fun c => (accepts_byte.ensures c).mono fun b _ ⟨bytes, hbytes, hspans⟩ =>
    ⟨bytes, accepts_byte.reads hbytes, hspans⟩⟩
  take n := ⟨id, fun c => (ensures_take n c).mono fun bytes _ ⟨hlength, hspans⟩ =>
    ⟨bytes, reads_take_of_length hlength, hspans⟩⟩

theorem encode_littleEndian (bytes : Bytes) :
    Encode.littleEndian bytes.length (littleEndian bytes) = bytes := by
  induction bytes with
  | nil => rfl
  | cons b bytes ih =>
    have hb := b.toNat_lt
    have htail : littleEndian (b :: bytes) = b.toNat + 256 * littleEndian bytes := rfl
    have hfirst : (b.toNat + 256 * littleEndian bytes) % 256 = b.toNat := by omega
    have hothers : (b.toNat + 256 * littleEndian bytes) / 256 = littleEndian bytes := by omega
    rw [List.length_cons, Encode.littleEndian, htail, hfirst, hothers, ih]
    simp

theorem littleEndian_lt (bytes : Bytes) : littleEndian bytes < 256 ^ bytes.length := by
  induction bytes with
  | nil => exact Nat.one_pos
  | cons b bytes ih =>
    have hb := b.toNat_lt
    have htail : littleEndian (b :: bytes) = b.toNat + 256 * littleEndian bytes := rfl
    rw [List.length_cons, Nat.pow_succ', htail]
    omega

/-- Four bytes are those of the word that they make. -/
theorem encode_word_littleEndian {bytes : Bytes} (h : bytes.length = 4) :
    Encode.word (littleEndian bytes).toUInt32 = bytes := by
  have hlt := littleEndian_lt bytes
  have hencode := encode_littleEndian bytes
  rw [h] at hlt hencode
  have hword : (littleEndian bytes).toUInt32.toNat = littleEndian bytes := by
    rw [Nat.toUInt32, UInt32.toNat_ofNat']
    exact Nat.mod_eq_of_lt hlt
  rw [Encode.word, hword, hencode]

theorem ensures_word (c : Cursor) :
    Ensures word c fun w c' => c.Spans (Encode.word w) c' := by
  refine .bind fun bytes c₁ hrun => .pure ?_
  obtain ⟨hlength, hspans⟩ := ensures_take 4 c bytes c₁ hrun
  rwa [encode_word_littleEndian hlength]

/-! ## Numbers of a variable size -/

/-- Groups of seven bits and the number that they make, low group first.  The high bit of a byte
says that another one follows, unless there have been as many as there may be. -/
inductive Groups : Nat → Bytes → Nat → Prop
  /-- There may be no more. -/
  | none : Groups 0 [] 0
  /-- The last byte. -/
  | last {count : Nat} {b : UInt8} (hb : b < 128) : Groups (count + 1) [b] b.toNat
  /-- A byte behind which there may be another one. -/
  | more {count : Nat} {b : UInt8} {bytes : Bytes} {n : Nat} (hb : ¬ b < 128)
    (h : Groups count bytes n) : Groups (count + 1) (b :: bytes) (b.toNat % 128 + 128 * n)

theorem Groups.reads {count : Nat} {bytes : Bytes} {n : Nat} (h : Groups count bytes n) :
    ∀ shift, Reads (groups count shift) bytes (n * 2 ^ shift) := by
  induction h with
  | none =>
    intro shift
    rw [Nat.zero_mul]
    exact Reads.pure 0
  | @last count b hb =>
    intro shift
    refine (reads_byte b).bind ?_
    have hmod : b.toNat % 128 = b.toNat := Nat.mod_eq_of_lt (UInt8.lt_iff_toNat_lt.1 hb)
    rw [if_pos hb, hmod]
    exact Reads.pure _
  | @more count b bytes n hb _ ih =>
    intro shift
    refine (reads_byte b).bind ?_
    rw [if_neg hb]
    have hsum : (b.toNat % 128 + 128 * n) * 2 ^ shift =
        b.toNat % 128 * 2 ^ shift + n * 2 ^ (shift + 7) := by
      rw [pow_add]
      ring
    rw [hsum]
    exact (ih (shift + 7)).map (b.toNat % 128 * 2 ^ shift + ·)

theorem ensures_groups (count shift : Nat) (c : Cursor) :
    Ensures (groups count shift) c fun n c' =>
      ∃ bytes m, Groups count bytes m ∧ n = m * 2 ^ shift ∧ c.Spans bytes c' := by
  induction count generalizing shift c with
  | zero => exact .pure ⟨[], 0, .none, (Nat.zero_mul _).symm, .refl c⟩
  | succ count ih =>
    refine .bind fun b c₁ hbyte => ?_
    obtain ⟨_, rfl, hspans⟩ := accepts_byte.ensures c b c₁ hbyte
    extract_lets low
    split
    · rename_i hb
      have hmod : b.toNat % 128 = b.toNat := Nat.mod_eq_of_lt (UInt8.lt_iff_toNat_lt.1 hb)
      refine .pure ⟨[b], b.toNat, .last hb, ?_, hspans⟩
      simp only [low, hmod]
    · rename_i hb
      refine .bind fun n c₂ hothers => .pure ?_
      obtain ⟨bytes, m, hgroups, rfl, hspans'⟩ := ih (shift + 7) c₁ n c₂ hothers
      refine ⟨b :: bytes, b.toNat % 128 + 128 * m, .more hb hgroups, ?_, hspans.trans hspans'⟩
      simp only [low]
      rw [pow_add]
      ring

end Reader

open Reader

/-! ## Languages of blocks -/

namespace Format

/-- A single byte. -/
def anyByte : Language UInt8 := {bytes | bytes.length = 1}

/-- A number, in at most five groups that are cut to 32 bits. -/
def numberOf (n : Nat) : Language UInt8 := {bytes | ∃ m, Groups 5 bytes m ∧ m % 2 ^ 32 = n}

/-- Any number. -/
def number : Language UInt8 := ⨆ n, numberOf n

/-- A number and as many items. -/
def counted (item : Language UInt8) : Language UInt8 := ⨆ n, numberOf n * item ^ n

/-- A byte without its high bit is a number. -/
theorem mem_numberOf {b : UInt8} (hb : b < 128) : [b] ∈ numberOf b.toNat := by
  have hlt := b.toNat_lt
  exact ⟨b.toNat, .last hb, Nat.mod_eq_of_lt (by omega)⟩

theorem append_mem_counted {item : Language UInt8} {n : Nat} {first items : Bytes}
    (hfirst : first ∈ numberOf n) (hitems : items ∈ item ^ n) : first ++ items ∈ counted item :=
  Language.mem_iSup.2 ⟨n, Language.append_mem_mul hfirst hitems⟩

/-- The type annotations of a prototype: as many bytes as a number says. -/
def types : Language UInt8 := counted anyByte

/-- The name of one of the host's types: a byte that is not zero and a number. -/
def typeName : Language UInt8 := (⨆ b ≠ (0 : UInt8), {[b]}) * number

/-- The names of the host's types, up to a byte that is zero. -/
def typeNames : Language UInt8 := typeName∗ * {[0]}

/-- A local variable: its name, where it begins and ends, and its register. -/
def variableName : Language UInt8 := number * (number * (number * anyByte))

/-- The names of a prototype's variables: the local ones, and the names of the upvalues. -/
def names : Language UInt8 := counted variableName * counted number

end Format

/-! ## Readers of blocks -/

namespace Reader

theorem accepts_varint : Accepts varint Format.numberOf where
  reads := by
    rintro _ bytes ⟨m, hgroups, rfl⟩
    have hread := (hgroups.reads 0).map (· % 2 ^ 32)
    rw [pow_zero, mul_one] at hread
    exact hread
  ensures c := by
    refine .bind fun n c₁ hgroups => .pure ?_
    obtain ⟨bytes, m, hm, rfl, hspans⟩ := ensures_groups 5 0 c n c₁ hgroups
    exact ⟨bytes, ⟨m, hm, by rw [pow_zero, mul_one]⟩, hspans⟩

theorem passes_byte : Passes byte Format.anyByte where
  reads hbytes := by
    obtain ⟨b, rfl⟩ := List.length_eq_one_iff.1 hbytes
    exact ⟨b, reads_byte b⟩
  ensures c := (accepts_byte.ensures c).mono fun b _ ⟨bytes, hbytes, hspans⟩ =>
    ⟨bytes, congrArg List.length hbytes, hspans⟩

theorem mem_anyByte_pow (n : Nat) (bytes : Bytes) :
    bytes ∈ Format.anyByte ^ n ↔ bytes.length = n := by
  induction n generalizing bytes with
  | zero => rw [pow_zero, Language.mem_one, List.length_eq_zero_iff]
  | succ n ih =>
    rw [pow_succ', Language.mem_mul]
    constructor
    · rintro ⟨first, hfirst, others, hothers, rfl⟩
      have hlength : first.length = 1 := hfirst
      rw [List.length_append, hlength, (ih others).1 hothers, Nat.add_comm]
    · intro hlength
      cases bytes with
      | nil => cases hlength
      | cons b others => exact ⟨[b], rfl, others, (ih others).2 (Nat.succ.inj hlength), rfl⟩

theorem passes_take (n : Nat) : Passes (take n) (Format.anyByte ^ n) where
  reads hbytes := ⟨_, reads_take_of_length ((mem_anyByte_pow n _).1 hbytes)⟩
  ensures c := (ensures_take n c).mono fun bytes _ ⟨hlength, hspans⟩ =>
    ⟨bytes, (mem_anyByte_pow n bytes).2 hlength, hspans⟩

theorem passes_replicate {α : Type} {step : Reader α} {item : Language UInt8}
    (h : Passes step item) (count : Nat) : Passes (replicate step count) (item ^ count) := by
  induction count with
  | zero => 
    rw [pow_zero]
    exact passes_pure []
  | succ count ih =>
    rw [pow_succ']
    exact h.bind fun first => ih.map _

theorem passes_counted {α : Type} {step : Reader α} {item : Language UInt8}
    (h : Passes step item) : Passes (counted step) (Format.counted item) :=
  accepts_varint.bind (passes_replicate h)

end Reader

namespace Image

theorem passes_skipTypes : Passes skipTypes Format.types :=
  accepts_varint.bind fun n => (passes_take n).map fun _ => ()

theorem passes_skipNames : Passes skipNames Format.names := by
  have hnumber : Passes varint Format.number := accepts_varint.passes
  have hvariable : Passes (do let _ ← varint; let _ ← varint; let _ ← varint; let _ ← byte)
      Format.variableName :=
    hnumber.bind fun _ => hnumber.bind fun _ => hnumber.bind fun _ => passes_byte.map fun _ => ()
  exact (passes_counted hvariable).bind fun _ => (passes_counted hnumber).map fun _ => ()

/-! ## Names of types -/

/-- The reader of all names of the host's types: each takes a byte at least, so that there is fuel
for them. -/
def skipAllTypeNames : Reader Unit := do skipTypeNames (← get).remaining.succ

theorem mem_typeName {bytes : Bytes} :
    bytes ∈ Format.typeName ↔ ∃ b ≠ 0, ∃ n, ∃ others ∈ Format.numberOf n, bytes = b :: others := by
  constructor
  · intro h
    obtain ⟨first, hfirst, others, hothers, rfl⟩ := Language.mem_mul.1 h
    obtain ⟨b, hb⟩ := Language.mem_iSup.1 hfirst
    obtain ⟨hzero, hb⟩ := Language.mem_iSup.1 hb
    obtain ⟨n, hn⟩ := Language.mem_iSup.1 hothers
    cases hb
    exact ⟨b, hzero, n, others, hn, rfl⟩
  · rintro ⟨b, hzero, n, others, hn, rfl⟩
    refine Language.append_mem_mul (a := [b]) (Language.mem_iSup.2 ⟨b, ?_⟩)
      (Language.mem_iSup.2 ⟨n, hn⟩)
    exact Language.mem_iSup.2 ⟨hzero, rfl⟩

theorem reads_skipTypeNames {words : List Bytes} (h : ∀ word ∈ words, word ∈ Format.typeName) :
    ∀ fuel, words.length < fuel → Reads (skipTypeNames fuel) (words.flatten ++ [0]) () := by
  induction words with
  | nil =>
    intro fuel hfuel
    obtain ⟨fuel, rfl⟩ := Nat.exists_eq_succ_of_ne_zero hfuel.ne'
    exact (reads_byte 0).bind (Reads.pure ())
  | cons word words ih =>
    intro fuel hfuel
    obtain ⟨fuel, rfl⟩ := Nat.exists_eq_succ_of_ne_zero (Nat.zero_lt_of_lt hfuel).ne'
    rw [List.forall_mem_cons] at h
    obtain ⟨b, hzero, n, others, hn, rfl⟩ := mem_typeName.1 h.1
    rw [List.flatten_cons, List.append_assoc, List.cons_append]
    refine (reads_byte b).bind ?_
    rw [if_neg hzero]
    exact (accepts_varint.reads hn).bind (ih h.2 fuel (Nat.lt_of_succ_lt_succ hfuel))

theorem length_le_flatten {words : List Bytes} (h : ∀ word ∈ words, word ∈ Format.typeName) :
    words.length ≤ words.flatten.length := by
  induction words with
  | nil => exact Nat.le_refl 0
  | cons word words ih =>
    rw [List.forall_mem_cons] at h
    obtain ⟨b, -, n, others, -, rfl⟩ := mem_typeName.1 h.1
    have hle := ih h.2
    simp only [List.flatten_cons, List.length_cons, List.length_append]
    omega

theorem ensures_skipTypeNames (fuel : Nat) (c : Cursor) (h : c.remaining < fuel) :
    Ensures (skipTypeNames fuel) c fun _ c' => ∃ bytes ∈ Format.typeNames, c.Spans bytes c' := by
  induction fuel generalizing c with
  | zero => exact absurd h (Nat.not_lt_zero _)
  | succ fuel ih =>
    refine .bind fun b c₁ hbyte => ?_
    obtain ⟨_, rfl, hspans⟩ := accepts_byte.ensures c b c₁ hbyte
    have hremaining : c.remaining = 1 + c₁.remaining := hspans.remaining_eq
    split
    · rename_i hzero
      subst hzero
      exact .pure ⟨[0], Language.append_mem_mul (a := []) (Language.nil_mem_kstar _) rfl, hspans⟩
    · rename_i hzero
      refine .bind fun n c₂ hnumber => ?_
      obtain ⟨others, hothers, hspans'⟩ := accepts_varint.ensures c₁ n c₂ hnumber
      have hremaining' := hspans'.remaining_eq
      refine (ih c₂ (by omega)).mono fun _ c' ⟨bytes, hbytes, hrest⟩ => ?_
      have hname : b :: others ∈ Format.typeName :=
        mem_typeName.2 ⟨b, hzero, n, others, hothers, rfl⟩
      refine ⟨b :: others ++ bytes, ?_, (hspans.trans hspans').trans hrest⟩
      obtain ⟨names, hnames, last, hlast, rfl⟩ := Language.mem_mul.1 hbytes
      have hmore : b :: others ++ names ∈ Format.typeName∗ :=
        Set.mem_of_mem_of_subset (Language.append_mem_mul hname hnames)
          (mul_kstar_le_kstar (a := Format.typeName))
      rw [← List.append_assoc]
      exact Language.append_mem_mul hmore hlast

theorem passes_skipAllTypeNames : Passes skipAllTypeNames Format.typeNames where
  reads := by
    intro bytes hbytes
    obtain ⟨names, hnames, last, hlast, rfl⟩ := Language.mem_mul.1 hbytes
    obtain ⟨words, rfl, hwords⟩ := Language.mem_kstar.1 hnames
    cases hlast
    refine ⟨(), fun position rest => ?_⟩
    have hlength := length_le_flatten hwords
    refine reads_skipTypeNames hwords _ ?_ position rest
    simp only [Cursor.remaining, List.length_append]
    omega
  ensures c := ensures_skipTypeNames c.remaining.succ c (Nat.lt_succ_self _)

end Image

end ScriptMachine
