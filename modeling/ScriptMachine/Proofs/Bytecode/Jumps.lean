import ScriptMachine.Bytecode.Image.Basic
import ScriptMachine.Proofs.Bytecode.Fields

/-!
# Patched jumps

A jump is emitted before its target is known, and its operand is patched into its word later.  The
patch changes that operand and nothing else.  A 16-bit operand either leads to the target, once it
is decoded, or is refused; a 24-bit operand is cut without a word, so that it leads to the target
exactly when the distance fits.
-/

namespace ScriptMachine

/-! ## Replaced operands -/

namespace Word

theorem fieldD_withD (d : Int) (w : UInt32) :
    fieldD (PrototypeDraft.withD d w) = Int.bmod d (2 ^ 16) := by
  have hfield : ((PrototypeDraft.withD d w).toNat : Int) / 2 ^ 16 = d % (2 ^ 16 : Nat) := by
    rw [Emission.toNat_withD]
    omega
  unfold fieldD
  rw [hfield, Int.emod_bmod]

theorem fieldE_withE (e : Int) (w : UInt32) :
    fieldE (PrototypeDraft.withE e w) = Int.bmod e (2 ^ 24) := by
  have hfield : ((PrototypeDraft.withE e w).toNat : Int) / 2 ^ 8 = e % (2 ^ 24 : Nat) := by
    rw [Emission.toNat_withE]
    omega
  unfold fieldE
  rw [hfield, Int.emod_bmod]

end Word

namespace CodeUnit

theorem d_of_format {u : CodeUnit} (h : u.opcode.info.operands = .ad) :
    u.operands.d = Word.fieldD u.word := by
  simp only [CodeUnit.operands, h, OperandFormat.operands]

theorem e_of_format {u : CodeUnit} (h : u.opcode.info.operands = .ae) :
    u.operands.e = Word.fieldE u.word := by
  simp only [CodeUnit.operands, h, OperandFormat.operands]

end CodeUnit

namespace PrototypeDraft

/-! ## Distances -/

/-- Slots that are counted in 31 bits have their distance in signed 32 bits. -/
theorem distance_eq {slot target : UInt32} (hslot : slot.toNat < 2 ^ 31)
    (htarget : target.toNat < 2 ^ 31) :
    distance slot target = (target.toNat : Int) - (slot.toNat + 1) := by
  have hnext : (slot + 1).toNat = slot.toNat + 1 := by
    rw [UInt32.toNat_add, UInt32.toNat_one]
    omega
  have hword : ((target - (slot + 1)).toNat : Int) =
      ((target.toNat : Int) - (slot.toNat + 1)) % (2 ^ 32 : Nat) := by
    rw [UInt32.toNat_sub, hnext]
    omega
  change (target - (slot + 1)).toBitVec.toInt = _
  rw [BitVec.toInt_eq_toNat_bmod, UInt32.toNat_toBitVec, hword, Int.emod_bmod]
  exact Int.bmod_eq_of_le_mul_two (by omega) (by omega)

/-! ## Patches -/

/-- One draft is another one with the word at a slot changed, and nothing else. -/
structure WordChanged (p q : PrototypeDraft) (slot : Nat) (w w' : UInt32) : Prop where
  /-- The word is changed, and keeps its line. -/
  changed : ∃ line, p.words[slot]? = some (w, line) ∧ q.words[slot]? = some (w', line)
  /-- All other words stay. -/
  others : ∀ i, i ≠ slot → q.words[i]? = p.words[i]?
  /-- All else stays. -/
  rest : { q with words := p.words } = p

theorem setWord_of_getElem? {p : PrototypeDraft} {w : UInt32} {line : Int32} {slot : Nat}
    (hw : p.words[slot]? = some (w, line)) (f : UInt32 → UInt32) :
    ∃ q, p.setWord slot f = .ok q ∧ p.WordChanged q slot w (f w) := by
  have hslot := (Array.getElem?_eq_some_iff.1 hw).1
  refine ⟨_, if_pos hslot, ⟨line, hw, ?_⟩, fun i hi => ?_, rfl⟩
  · rw [Array.getElem?_modify, if_pos rfl, hw]
    rfl
  · rw [Array.getElem?_modify, if_neg hi.symm]

section Patches

variable {p : PrototypeDraft} {w : UInt32} {line : Int32} {slot target : UInt32}
  (hw : p.words[slot.toNat]? = some (w, line)) (hslot : slot.toNat < 2 ^ 31)
  (htarget : target.toNat < 2 ^ 31)

include hw hslot htarget

/-- A distance that a 16-bit operand can hold is patched into it. -/
theorem patchD_of_near (hlow : -2 ^ 15 ≤ (target.toNat : Int) - (slot.toNat + 1))
    (hhigh : (target.toNat : Int) - (slot.toNat + 1) < 2 ^ 15) :
    ∃ q w', p.patchD slot target = .ok q ∧ p.WordChanged q slot.toNat w w' ∧
      w'.toNat % 2 ^ 16 = w.toNat % 2 ^ 16 ∧
      ∀ u : CodeUnit, u.word = w' → u.opcode.info.operands = .ad →
        u.operands.d = (target.toNat : Int) - (slot.toNat + 1) := by
  obtain ⟨q, hq, hchanged⟩ := setWord_of_getElem? hw (withD (distance slot target))
  have hd := distance_eq hslot htarget
  rw [patchD, if_neg (by omega), hq]
  refine ⟨q, _, rfl, hchanged, ?_, fun u hu hformat => ?_⟩
  · rw [Emission.toNat_withD]
    omega
  · rw [CodeUnit.d_of_format hformat, hu, Word.fieldD_withD, hd]
    exact Int.bmod_eq_of_le_mul_two (by omega) (by omega)

omit hw in
/-- Any other distance is refused. -/
theorem patchD_of_far (hfar : ¬ (-2 ^ 15 ≤ (target.toNat : Int) - (slot.toNat + 1) ∧
      (target.toNat : Int) - (slot.toNat + 1) < 2 ^ 15)) :
    p.patchD slot target = .error (.jumpRange slot target) := by
  have hd := distance_eq hslot htarget
  rw [patchD, if_pos (by omega)]

/-- Every distance is patched into a 24-bit operand, which holds what is left of it in 24 bits. -/
theorem patchE_cut :
    ∃ q w', p.patchE slot target = .ok q ∧ p.WordChanged q slot.toNat w w' ∧
      w'.toNat % 2 ^ 8 = w.toNat % 2 ^ 8 ∧
      ∀ u : CodeUnit, u.word = w' → u.opcode.info.operands = .ae →
        u.operands.e = Int.bmod ((target.toNat : Int) - (slot.toNat + 1)) (2 ^ 24) := by
  obtain ⟨q, hq, hchanged⟩ := setWord_of_getElem? hw (withE (distance slot target))
  refine ⟨q, _, hq, hchanged, ?_, fun u hu hformat => ?_⟩
  · rw [Emission.toNat_withE]
    omega
  · rw [CodeUnit.e_of_format hformat, hu, Word.fieldE_withE, distance_eq hslot htarget]

/-- Patched jumps land on their target as far as their operand reaches.  A 16-bit operand is refused
when it does not reach, and the draft is not changed.  A 24-bit operand never is: the jump leads to
the target exactly when the distance fits into 24 bits.  Either patch changes the one word only, and
of that word nothing but the operand. -/
theorem patched_jumps_land :
    let distance := (target.toNat : Int) - (slot.toNat + 1)
    (if -2 ^ 15 ≤ distance ∧ distance < 2 ^ 15 then
      ∃ q w', p.patchD slot target = .ok q ∧ p.WordChanged q slot.toNat w w' ∧
        w'.toNat % 2 ^ 16 = w.toNat % 2 ^ 16 ∧
        ∀ u : CodeUnit, u.word = w' → u.opcode.info.operands = .ad →
          (slot.toNat : Int) + 1 + u.operands.d = target.toNat
    else p.patchD slot target = .error (.jumpRange slot target)) ∧
    ∃ q w', p.patchE slot target = .ok q ∧ p.WordChanged q slot.toNat w w' ∧
      w'.toNat % 2 ^ 8 = w.toNat % 2 ^ 8 ∧
      ∀ u : CodeUnit, u.word = w' → u.opcode.info.operands = .ae →
        ((slot.toNat : Int) + 1 + u.operands.e = target.toNat ↔
          -2 ^ 23 ≤ distance ∧ distance < 2 ^ 23) := by
  intro distance
  refine ⟨?_, ?_⟩
  · split
    · rename_i hnear
      obtain ⟨q, w', hq, hchanged, hlow, hd⟩ := patchD_of_near hw hslot htarget hnear.1 hnear.2
      refine ⟨q, w', hq, hchanged, hlow, fun u hu hformat => ?_⟩
      rw [hd u hu hformat]
      omega
    · rename_i hfar
      exact patchD_of_far hslot htarget hfar
  · obtain ⟨q, w', hq, hchanged, hlow, he⟩ := patchE_cut hw hslot htarget
    refine ⟨q, w', hq, hchanged, hlow, fun u hu hformat => ?_⟩
    rw [he u hu hformat]
    change (slot.toNat : Int) + 1 + Int.bmod distance (2 ^ 24) = target.toNat ↔ _
    have hlower := Int.le_bmod (x := distance) (m := 2 ^ 24) (by decide)
    have hupper := Int.bmod_lt (x := distance) (m := 2 ^ 24) (by decide)
    constructor
    · intro hlands
      omega
    · rintro ⟨h₁, h₂⟩
      rw [Int.bmod_eq_of_le_mul_two (by omega) (by omega)]
      omega

end Patches

/-- A draft of one extended jump, whose target is not known yet. -/
def lonelyJump : PrototypeDraft := (push {} (aeWord Opcode.jumpExtended.toNat.toUInt8 0)).2

/-- To the last slot that it can reach, it jumps. -/
theorem patched_jumps_land_of_lonelyJump :
    lonelyJump.words[(0 : UInt32).toNat]? = some (67, 0) ∧ (0 : UInt32).toNat < 2 ^ 31 ∧
      (8388608 : UInt32).toNat < 2 ^ 31 ∧
      lonelyJump.patchD 0 8388608 = .error (.jumpRange 0 8388608) ∧
      ∃ q w', lonelyJump.patchE 0 8388608 = .ok q ∧ lonelyJump.WordChanged q 0 67 w' ∧
        1 + (CodeUnit.mk .jumpExtended w' none).operands.e = 8388608 := by
  have hw : lonelyJump.words[(0 : UInt32).toNat]? = some (67, 0) := by decide
  obtain ⟨hd, q, w', hq, hchanged, -, he⟩ :=
    patched_jumps_land hw (by decide) (by decide : (8388608 : UInt32).toNat < 2 ^ 31)
  refine ⟨hw, by decide, by decide, hd, q, w', hq, hchanged, ?_⟩
  exact (he ⟨.jumpExtended, w', none⟩ rfl rfl).2 (by decide)

/-- One slot further it jumps back instead, by as much. -/
theorem extended_jump_misses : ∃ q w', lonelyJump.patchE 0 8388609 = .ok q ∧
    q.words[0]?.map Prod.fst = some w' ∧
    Opcode.ofNat? (Word.opcodeNumber w') = some .jumpExtended ∧
    (0 : Int) + 1 + (CodeUnit.mk .jumpExtended w' none).operands.e = -8388607 := by
  exact ⟨_, _, rfl, rfl, by decide, by decide⟩

end PrototypeDraft

end ScriptMachine
