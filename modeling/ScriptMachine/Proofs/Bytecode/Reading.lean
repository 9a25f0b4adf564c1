import Mathlib
import ScriptMachine.Bytecode.Assembly
import ScriptMachine.Bytecode.Cursor

/-!
# Readers undo writers

A reader *reads* some bytes as a result when it takes exactly these bytes from the front of whatever
is left and gives that result.  Readers in sequence read bytes in sequence, and each reader of a
number, a string or a counted list reads what the writer of the same name wrote.
-/

namespace ScriptMachine.Reader

/-- The reader takes exactly the given bytes and gives the result. -/
def Reads {α : Type} (r : Reader α) (bytes : Bytes) (a : α) : Prop :=
  ∀ position rest, r ⟨position, bytes ++ rest⟩ = .ok a ⟨position + bytes.length, rest⟩

section Sequence

variable {α β : Type} {r : Reader α} {f : α → Reader β} {bytes bytes' : Bytes} {a : α} {b : β}

theorem Reads.pure (a : α) : Reads (Pure.pure a) [] a := by
  intro position rest
  rfl

theorem Reads.bind (h : Reads r bytes a) (h' : Reads (f a) bytes' b) :
    Reads (r >>= f) (bytes ++ bytes') b := by
  intro position rest
  change EStateM.bind r f _ = _
  rw [EStateM.bind, List.append_assoc, h position (bytes' ++ rest)]
  dsimp only
  rw [h', List.length_append, Nat.add_assoc]

theorem Reads.map (h : Reads r bytes a) (g : α → β) :
    Reads (do return g (← r)) bytes (g a) := by
  have hread := h.bind (f := fun a => Pure.pure (g a)) (Reads.pure (g a))
  rw [List.append_nil] at hread
  exact hread

end Sequence

/-! ## Bytes -/

theorem reads_byte (b : UInt8) : Reads byte [b] b := by
  intro position rest
  rfl

theorem reads_flag (b : Bool) : Reads flag (Encode.flag b) b := by
  have hread := (reads_byte (if b then 1 else 0)).map (· != 0)
  cases b <;> exact hread

theorem split?_append (bytes rest : Bytes) :
    split? bytes.length (bytes ++ rest) = some (bytes, rest) := by
  induction bytes with
  | nil => rfl
  | cons b bytes ih =>
    simp only [List.length_cons, List.cons_append, split?, ih]
    rfl

theorem reads_take (bytes : Bytes) : Reads (take bytes.length) bytes bytes := by
  intro position rest
  rw [take, split?_append]

theorem reads_take_of_length {n : Nat} {bytes : Bytes} (h : bytes.length = n) :
    Reads (take n) bytes bytes :=
  h ▸ reads_take bytes

/-! ## Numbers of a fixed size -/

theorem length_littleEndian (count n : Nat) : (Encode.littleEndian count n).length = count := by
  induction count generalizing n with
  | zero => rfl
  | succ count ih => rw [Encode.littleEndian, List.length_cons, ih]

theorem littleEndian_encode (count n : Nat) :
    littleEndian (Encode.littleEndian count n) = n % 256 ^ count := by
  induction count generalizing n with
  | zero => simp [littleEndian, Encode.littleEndian, Nat.mod_one]
  | succ count ih =>
    have hbyte : (n % 256).toUInt8.toNat = n % 256 := by
      simp only [Nat.toUInt8, UInt8.toNat_ofNat']
      omega
    have htail : littleEndian (Encode.littleEndian (count + 1) n) =
        (n % 256).toUInt8.toNat + 256 * littleEndian (Encode.littleEndian count (n / 256)) := rfl
    rw [htail, ih, hbyte, Nat.pow_succ', Nat.mod_mul]

theorem reads_word (w : UInt32) : Reads word (Encode.word w) w := by
  have hlength : (Encode.word w).length = 4 := length_littleEndian 4 _
  have hread := (reads_take_of_length hlength).map fun bytes => (littleEndian bytes).toUInt32
  have hw : (littleEndian (Encode.word w)).toUInt32 = w := by
    have hlt := w.toNat_lt
    rw [Encode.word, littleEndian_encode, Nat.mod_eq_of_lt (by omega)]
    simp
  rw [hw] at hread
  exact hread

theorem reads_single (x : Float32) : Reads single (Encode.single x) x := by
  have hread := (reads_word x.toBits).map Float32.ofBits
  rw [Float32.ofBits_toBits] at hread
  exact hread

theorem reads_double (x : Float) : Reads double (Encode.double x) x := by
  have hlength : (Encode.double x).length = 8 := length_littleEndian 8 _
  have hread := (reads_take_of_length hlength).map fun bytes =>
    Float.ofBits (littleEndian bytes).toUInt64
  have hx : Float.ofBits (littleEndian (Encode.double x)).toUInt64 = x := by
    have hlt := x.toBits.toNat_lt
    rw [Encode.double, littleEndian_encode, Nat.mod_eq_of_lt (by omega)]
    simp
  rw [hx] at hread
  exact hread

/-! ## Numbers of a variable size -/

/-- The groups of a number add up to it, and there are no more of them than its bits need. -/
theorem reads_groups (count : Nat) :
    ∀ n shift, n < 2 ^ (7 * count) → 0 < count →
      Reads (groups count shift) (Encode.varint n) (n * 2 ^ shift) := by
  induction count with
  | zero => intro n shift _ h; omega
  | succ count ih =>
    intro n shift hn _
    rw [Encode.varint, groups]
    split
    · rename_i hsmall
      have hb : n.toUInt8.toNat = n := by
        simp only [Nat.toUInt8, UInt8.toNat_ofNat']
        omega
      have hlast : n.toUInt8 < 128 := by
        rw [UInt8.lt_iff_toNat_lt, hb]
        exact hsmall
      have hdone : Reads (if n.toUInt8 < 128 then Pure.pure (n.toUInt8.toNat % 128 * 2 ^ shift)
          else do return n.toUInt8.toNat % 128 * 2 ^ shift + (← groups count (shift + 7)))
          [] (n * 2 ^ shift) := by
        rw [if_pos hlast, hb, Nat.mod_eq_of_lt hsmall]
        exact Reads.pure _
      exact (reads_byte n.toUInt8).bind hdone
    · rename_i hlarge
      have hb : (n % 128 + 128).toUInt8.toNat = n % 128 + 128 := by
        simp only [Nat.toUInt8, UInt8.toNat_ofNat']
        omega
      have hmore : ¬ (n % 128 + 128).toUInt8 < 128 := by
        rw [UInt8.lt_iff_toNat_lt, hb]
        simp
      have hpow : 2 ^ (7 * (count + 1)) = 128 * 2 ^ (7 * count) := by
        rw [show 7 * (count + 1) = 7 + 7 * count by omega, pow_add]
        norm_num
      have hcount : 0 < count := by
        rcases Nat.eq_zero_or_pos count with rfl | hpos
        · simp at hn
          omega
        · exact hpos
      have hrest := ih (n / 128) (shift + 7) (by omega) hcount
      have hsum : (n % 128 + 128) % 128 * 2 ^ shift + n / 128 * 2 ^ (shift + 7) =
          n * 2 ^ shift := by
        rw [Nat.add_mod_right, Nat.mod_mod, pow_add]
        calc n % 128 * 2 ^ shift + n / 128 * (2 ^ shift * 2 ^ 7)
            = (n % 128 + 128 * (n / 128)) * 2 ^ shift := by ring
          _ = n * 2 ^ shift := by rw [Nat.mod_add_div]
      have hgo : Reads (if (n % 128 + 128).toUInt8 < 128 then
          Pure.pure ((n % 128 + 128).toUInt8.toNat % 128 * 2 ^ shift)
          else do return (n % 128 + 128).toUInt8.toNat % 128 * 2 ^ shift +
            (← groups count (shift + 7)))
          (Encode.varint (n / 128)) (n * 2 ^ shift) := by
        rw [if_neg hmore, hb, ← hsum]
        exact hrest.map _
      exact (reads_byte (n % 128 + 128).toUInt8).bind hgo

theorem reads_varint {n : Nat} (hn : n < 2 ^ 32) : Reads varint (Encode.varint n) n := by
  have hread := (reads_groups 5 n 0 (by omega) (by omega)).map (· % 2 ^ 32)
  rw [pow_zero, mul_one, Nat.mod_eq_of_lt hn] at hread
  exact hread

/-! ## Strings and lists -/

theorem reads_string {s : Bytes} (hs : s.length < 2 ^ 32) :
    Reads string (ModuleDraft.encodeString s) s :=
  (reads_varint hs).bind (reads_take s)

section Lists

variable {α β : Type} {step : Reader β} {encode : α → Bytes} {decode : α → β}

theorem reads_replicate (items : List α)
    (h : ∀ item ∈ items, Reads step (encode item) (decode item)) :
    Reads (replicate step items.length) (items.flatMap encode) (items.map decode) := by
  induction items with
  | nil => exact Reads.pure []
  | cons item items ih =>
    rw [List.forall_mem_cons] at h
    exact h.1.bind ((ih h.2).map _)

/-- A counted list is read back item by item. -/
theorem reads_counted {items : List α} (hcount : items.length < 2 ^ 32)
    (h : ∀ item ∈ items, Reads step (encode item) (decode item)) :
    Reads (counted step) (Encode.counted encode items) (items.map decode) :=
  (reads_varint hcount).bind (reads_replicate items h)

end Lists

end ScriptMachine.Reader
