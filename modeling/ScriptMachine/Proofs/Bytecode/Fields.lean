import Mathlib
import ScriptMachine.Bytecode.Assembly

/-!
# Fields of emitted words

What is emitted into a slot of the code keeps its arguments: the fields of the word that is written
for it are the arguments again, also after its jump operand has been replaced.
-/

namespace ScriptMachine

/-- What is emitted into one slot of the code. -/
inductive Emission where
  /-- An operation without operands. -/
  | plain (opcode : UInt8)
  /-- An operation with three byte operands. -/
  | abc (opcode a b c : UInt8)
  /-- An operation with a byte operand and a signed 16-bit one. -/
  | ad (opcode a : UInt8) (d : Int16)
  /-- An operation with a signed operand of which 24 bits are written. -/
  | ae (opcode : UInt8) (e : Int32)
  /-- An auxiliary word. -/
  | aux (word : UInt32)

namespace Emission

/-- The word that is written. -/
def word : Emission → UInt32
  | plain opcode => PrototypeDraft.plainWord opcode
  | abc opcode a b c => PrototypeDraft.abcWord opcode a b c
  | ad opcode a d => PrototypeDraft.adWord opcode a d.toInt
  | ae opcode e => PrototypeDraft.aeWord opcode e.toInt
  | aux word => word

/-- The operation that is emitted, if it is one. -/
def opcode? : Emission → Option UInt8
  | plain opcode | abc opcode _ _ _ | ad opcode _ _ | ae opcode _ => some opcode
  | aux _ => none

/-- The operands that are emitted, as far as a format has them.  Arguments that were given for
another format have no meaning in this one. -/
def operands? (emission : Emission) (format : OperandFormat) : Option Operands :=
  match emission, format with
  | plain _, _ => some {}
  | abc .., .none | ad .., .none | ae .., .none => some {}
  | abc _ a _ _, .a | ad _ a _, .a => some { a := a.toNat }
  | abc _ a b _, .ab => some { a := a.toNat, b := b.toNat }
  | abc _ a b c, .abc => some { a := a.toNat, b := b.toNat, c := c.toNat }
  | ad _ a d, .ad => some { a := a.toNat, d := d.toInt }
  | ae _ e, .ae => some { e := e.toInt }
  | _, _ => none

/-- A wide operand fits into the 24 bits that are written. -/
def Fits : Emission → Prop
  | ae _ e => -2 ^ 23 ≤ e.toInt ∧ e.toInt < 2 ^ 23
  | _ => True

/-! ## Words and their fields -/

theorem toNat_plainWord (opcode : UInt8) :
    (PrototypeDraft.plainWord opcode).toNat = opcode.toNat := by
  rw [PrototypeDraft.plainWord, UInt8.toNat_toUInt32]

theorem toNat_abcWord (opcode a b c : UInt8) :
    (PrototypeDraft.abcWord opcode a b c).toNat =
      opcode.toNat + a.toNat * 2 ^ 8 + b.toNat * 2 ^ 16 + c.toNat * 2 ^ 24 := by
  have ho := opcode.toNat_lt
  have ha := a.toNat_lt
  have hb := b.toNat_lt
  have hc := c.toNat_lt
  rw [PrototypeDraft.abcWord, Nat.toUInt32, UInt32.toNat_ofNat']
  omega

theorem toNat_adWord (opcode a : UInt8) (d : Int) :
    (PrototypeDraft.adWord opcode a d).toNat =
      opcode.toNat + a.toNat * 2 ^ 8 + (d % 2 ^ 16).toNat * 2 ^ 16 := by
  have ho := opcode.toNat_lt
  have ha := a.toNat_lt
  rw [PrototypeDraft.adWord, Nat.toUInt32, UInt32.toNat_ofNat']
  omega

theorem toNat_aeWord (opcode : UInt8) (e : Int) :
    (PrototypeDraft.aeWord opcode e).toNat = opcode.toNat + (e % 2 ^ 24).toNat * 2 ^ 8 := by
  have ho := opcode.toNat_lt
  rw [PrototypeDraft.aeWord, Nat.toUInt32, UInt32.toNat_ofNat']
  omega

theorem toNat_withD (d : Int) (w : UInt32) :
    (PrototypeDraft.withD d w).toNat = w.toNat % 2 ^ 16 + (d % 2 ^ 16).toNat * 2 ^ 16 := by
  rw [PrototypeDraft.withD, Nat.toUInt32, UInt32.toNat_ofNat']
  omega

theorem toNat_withE (e : Int) (w : UInt32) :
    (PrototypeDraft.withE e w).toNat = w.toNat % 2 ^ 8 + (e % 2 ^ 24).toNat * 2 ^ 8 := by
  rw [PrototypeDraft.withE, Nat.toUInt32, UInt32.toNat_ofNat']
  omega

/-- The operation of an emitted word is the one that was emitted. -/
theorem opcodeNumber_word {emission : Emission} {opcode : UInt8}
    (h : emission.opcode? = some opcode) : Word.opcodeNumber emission.word = opcode.toNat := by
  have ho := opcode.toNat_lt
  cases emission with
  | plain =>
    cases h
    rw [Word.opcodeNumber, word, toNat_plainWord]
    omega
  | abc =>
    cases h
    rw [Word.opcodeNumber, word, toNat_abcWord]
    omega
  | ad =>
    cases h
    rw [Word.opcodeNumber, word, toNat_adWord]
    omega
  | ae =>
    cases h
    rw [Word.opcodeNumber, word, toNat_aeWord]
    omega
  | aux => cases h

theorem operands_plainWord (format : OperandFormat) (opcode : UInt8) :
    format.operands (PrototypeDraft.plainWord opcode) = {} := by
  have ho := opcode.toNat_lt
  have ha : opcode.toNat / 2 ^ 8 = 0 := by omega
  have hb : opcode.toNat / 2 ^ 16 = 0 := by omega
  have hc : opcode.toNat / 2 ^ 24 = 0 := by omega
  have hd : (opcode.toNat : Int) / 2 ^ 16 = 0 := by omega
  have he : (opcode.toNat : Int) / 2 ^ 8 = 0 := by omega
  unfold OperandFormat.operands Word.fieldA Word.fieldB Word.fieldC Word.fieldD Word.fieldE
  simp only [toNat_plainWord, ha, hb, hc, hd, he, Int.zero_bmod]
  cases format <;> rfl

@[simp] theorem fieldA_abcWord (opcode a b c : UInt8) :
    Word.fieldA (PrototypeDraft.abcWord opcode a b c) = a.toNat := by
  have ho := opcode.toNat_lt
  have ha := a.toNat_lt
  rw [Word.fieldA, toNat_abcWord]
  omega

@[simp] theorem fieldB_abcWord (opcode a b c : UInt8) :
    Word.fieldB (PrototypeDraft.abcWord opcode a b c) = b.toNat := by
  have ho := opcode.toNat_lt
  have ha := a.toNat_lt
  have hb := b.toNat_lt
  rw [Word.fieldB, toNat_abcWord]
  omega

@[simp] theorem fieldC_abcWord (opcode a b c : UInt8) :
    Word.fieldC (PrototypeDraft.abcWord opcode a b c) = c.toNat := by
  have ho := opcode.toNat_lt
  have ha := a.toNat_lt
  have hb := b.toNat_lt
  rw [Word.fieldC, toNat_abcWord]
  omega

@[simp] theorem fieldA_adWord (opcode a : UInt8) (d : Int) :
    Word.fieldA (PrototypeDraft.adWord opcode a d) = a.toNat := by
  have ho := opcode.toNat_lt
  have ha := a.toNat_lt
  rw [Word.fieldA, toNat_adWord]
  omega

/-- A signed number in the range of a field comes back from the field. -/
theorem bmod_emod {d m : Int} {n : Nat} (hm : m = n) (hlow : -m ≤ 2 * d) (hhigh : 2 * d < m) :
    Int.bmod (d % m) n = d := by
  subst hm
  rw [Int.emod_bmod]
  exact Int.bmod_eq_of_le_mul_two (by omega) (by omega)

@[simp] theorem fieldD_adWord (opcode a : UInt8) (d : Int16) :
    Word.fieldD (PrototypeDraft.adWord opcode a d.toInt) = d.toInt := by
  have ho := opcode.toNat_lt
  have ha := a.toNat_lt
  have hfield : ((PrototypeDraft.adWord opcode a d.toInt).toNat : Int) / 2 ^ 16 =
      d.toInt % 2 ^ 16 := by
    rw [toNat_adWord]
    omega
  have hlow := d.le_toInt
  have hhigh := d.toInt_lt
  unfold Word.fieldD
  simp only [hfield]
  exact bmod_emod (by norm_num) (by omega) (by omega)

theorem fieldE_aeWord (opcode : UInt8) {e : Int} (hlow : -2 ^ 23 ≤ e) (hhigh : e < 2 ^ 23) :
    Word.fieldE (PrototypeDraft.aeWord opcode e) = e := by
  have ho := opcode.toNat_lt
  have hfield : ((PrototypeDraft.aeWord opcode e).toNat : Int) / 2 ^ 8 = e % 2 ^ 24 := by
    rw [toNat_aeWord]
    omega
  unfold Word.fieldE
  simp only [hfield]
  exact bmod_emod (by norm_num) (by omega) (by omega)

/-- The operands of an emitted word are the ones that were emitted. -/
theorem operands_word {emission : Emission} {format : OperandFormat} {operands : Operands}
    (hfits : emission.Fits) (h : emission.operands? format = some operands) :
    format.operands emission.word = operands := by
  cases emission with
  | plain opcode =>
    cases h
    exact operands_plainWord format opcode
  | abc opcode a b c =>
    cases format <;> cases h <;>
      simp only [OperandFormat.operands, word, fieldA_abcWord, fieldB_abcWord, fieldC_abcWord]
  | ad opcode a d =>
    cases format <;> cases h <;>
      simp only [OperandFormat.operands, word, fieldA_adWord, fieldD_adWord]
  | ae opcode e =>
    cases format <;> cases h
    · rfl
    · simp only [OperandFormat.operands, word, fieldE_aeWord opcode hfits.1 hfits.2]
  | aux word => cases format <;> cases h

/-! ## Replaced jump operands -/

/-- What has been emitted once the 16-bit operand of its word has been replaced.  Below that operand
a wide one leaves its low byte. -/
def withD (d : Int16) : Emission → Emission
  | plain opcode => ad opcode 0 d
  | abc opcode a _ _ => ad opcode a d
  | ad opcode a _ => ad opcode a d
  | ae opcode e => ad opcode (e.toInt % 2 ^ 8).toNat.toUInt8 d
  | aux word => aux (PrototypeDraft.withD d.toInt word)

/-- What has been emitted once the 24-bit operand of its word has been replaced. -/
def withE (e : Int32) : Emission → Emission
  | plain opcode | abc opcode _ _ _ | ad opcode _ _ | ae opcode _ => ae opcode e
  | aux word => aux (PrototypeDraft.withE e.toInt word)

theorem word_withD (d : Int16) (emission : Emission) :
    (emission.withD d).word = PrototypeDraft.withD d.toInt emission.word := by
  rw [← UInt32.toNat_inj, toNat_withD]
  cases emission with
  | plain opcode =>
    have ho := opcode.toNat_lt
    rw [withD, word, word, toNat_adWord, toNat_plainWord, UInt8.toNat_zero]
    omega
  | abc opcode a b c =>
    have ho := opcode.toNat_lt
    have ha := a.toNat_lt
    rw [withD, word, word, toNat_adWord, toNat_abcWord]
    omega
  | ad opcode a =>
    have ho := opcode.toNat_lt
    have ha := a.toNat_lt
    rw [withD, word, word, toNat_adWord, toNat_adWord]
    omega
  | ae opcode e =>
    have ho := opcode.toNat_lt
    rw [withD, word, word, toNat_adWord, toNat_aeWord, Nat.toUInt8, UInt8.toNat_ofNat']
    omega
  | aux word => exact toNat_withD _ _

theorem word_withE (e : Int32) (emission : Emission) :
    (emission.withE e).word = PrototypeDraft.withE e.toInt emission.word := by
  rw [← UInt32.toNat_inj, toNat_withE]
  cases emission with
  | plain opcode =>
    have ho := opcode.toNat_lt
    rw [withE, word, word, toNat_aeWord, toNat_plainWord]
    omega
  | abc opcode a b c =>
    have ho := opcode.toNat_lt
    rw [withE, word, word, toNat_aeWord, toNat_abcWord]
    omega
  | ad opcode a =>
    have ho := opcode.toNat_lt
    rw [withE, word, word, toNat_aeWord, toNat_adWord]
    omega
  | ae opcode e =>
    have ho := opcode.toNat_lt
    rw [withE, word, word, toNat_aeWord, toNat_aeWord]
    omega
  | aux word => exact toNat_withE _ _

end Emission

/-! ## Paths of globals -/

namespace AuxWord

/-- A field below another one does not disturb it. -/
theorem or_eq_add {high low bits : Nat} (hlow : low < 2 ^ bits) :
    (high * 2 ^ bits) ||| low = high * 2 ^ bits + low := by
  rw [Nat.mul_comm, Nat.two_pow_add_eq_or_of_lt hlow]

theorem toNat_shiftLeft {k shift : UInt32} {bits : Nat} (hshift : shift.toNat = bits)
    (hbits : bits < 32) (hk : k.toNat * 2 ^ bits < 2 ^ 32) :
    (k <<< shift).toNat = k.toNat * 2 ^ bits := by
  rw [UInt32.toNat_shiftLeft, hshift, Nat.mod_eq_of_lt hbits, Nat.shiftLeft_eq,
    Nat.mod_eq_of_lt hk]

theorem getD_lt {indices : List UInt32} {bound : Nat} (hindices : ∀ k ∈ indices, k.toNat < bound)
    (hbound : 0 < bound) (i : Nat) : (indices.getD i 0).toNat < bound := by
  rw [List.getD_eq_getElem?_getD]
  rcases hget : indices[i]? with _ | k
  · exact hbound
  · exact hindices k (List.mem_of_getElem? hget)

/-- A packed path is the sum of its fields. -/
theorem toNat_importId {indices : List UInt32} (hlength : indices.length ≤ 3)
    (hindices : ∀ k ∈ indices, k.toNat < 2 ^ 10) :
    (PrototypeDraft.importId indices).toNat =
      indices.length * 2 ^ 30 + (indices.getD 0 0).toNat * 2 ^ 20 +
        (indices.getD 1 0).toNat * 2 ^ 10 + (indices.getD 2 0).toNat := by
  have h0 := getD_lt hindices (by decide) 0
  have h1 := getD_lt hindices (by decide) 1
  have h2 := getD_lt hindices (by decide) 2
  have hcount : (indices.length.toUInt32 <<< 30).toNat = indices.length * 2 ^ 30 := by
    have hn : indices.length.toUInt32.toNat = indices.length := by
      rw [Nat.toUInt32, UInt32.toNat_ofNat']
      omega
    have hshift : (indices.length.toUInt32 <<< (30 : UInt32)).toNat =
        indices.length.toUInt32.toNat * 2 ^ 30 := toNat_shiftLeft rfl (by omega) (by omega)
    rw [hshift, hn]
  have hfirst : (indices.getD 0 0 <<< (20 : UInt32)).toNat = (indices.getD 0 0).toNat * 2 ^ 20 :=
    toNat_shiftLeft rfl (by omega) (by omega)
  have hsecond : (indices.getD 1 0 <<< (10 : UInt32)).toNat = (indices.getD 1 0).toNat * 2 ^ 10 :=
    toNat_shiftLeft rfl (by omega) (by omega)
  have hthird : (indices.getD 2 0 <<< (0 : UInt32)).toNat = (indices.getD 2 0).toNat := by
    have hshift : (indices.getD 2 0 <<< (0 : UInt32)).toNat = (indices.getD 2 0).toNat * 2 ^ 0 :=
      toNat_shiftLeft rfl (by omega) (by omega)
    rw [hshift, pow_zero, mul_one]
  unfold PrototypeDraft.importId
  simp only [UInt32.toNat_or, hcount, hfirst, hsecond, hthird]
  rw [or_eq_add (by omega),
    show indices.length * 2 ^ 30 + (indices.getD 0 0).toNat * 2 ^ 20 =
      (indices.length * 2 ^ 10 + (indices.getD 0 0).toNat) * 2 ^ 20 by ring,
    or_eq_add (by omega),
    show (indices.length * 2 ^ 10 + (indices.getD 0 0).toNat) * 2 ^ 20 +
        (indices.getD 1 0).toNat * 2 ^ 10 =
      ((indices.length * 2 ^ 10 + (indices.getD 0 0).toNat) * 2 ^ 10 +
        (indices.getD 1 0).toNat) * 2 ^ 10 by ring,
    or_eq_add (by omega)]

/-- The fields of a packed path are its length and its constants. -/
theorem path_importId {indices : List UInt32} (hlength : indices.length ≤ 3)
    (hindices : ∀ k ∈ indices, k.toNat < 2 ^ 10) :
    pathLength (PrototypeDraft.importId indices) = indices.length ∧
      pathIndices (PrototypeDraft.importId indices) =
        ((indices.getD 0 0).toNat, (indices.getD 1 0).toNat, (indices.getD 2 0).toNat) := by
  have h0 := getD_lt hindices (by decide) 0
  have h1 := getD_lt hindices (by decide) 1
  have h2 := getD_lt hindices (by decide) 2
  have hid := toNat_importId hlength hindices
  refine ⟨?_, ?_⟩
  · rw [pathLength, hid]
    omega
  · rw [pathIndices, hid]
    refine Prod.ext ?_ (Prod.ext ?_ ?_)
    · dsimp only
      omega
    · dsimp only
      omega
    · dsimp only
      omega

end AuxWord

end ScriptMachine
