import ScriptMachine.Bytecode.Image.Reader
import ScriptMachine.Proofs.Bytecode.Reading

/-!
# Lines of slots

The lines of a prototype's slots are kept small.  Slots are put together in intervals of the same
count, each with a base line, and the line of a slot is the base line of its interval and an offset
of one byte.  Offsets and base lines stand in a file as steps from one to the next, which wrap
around in 8 and 32 bits.
-/

namespace ScriptMachine

namespace Image

open Reader

/-! ## Steps -/

/-- The steps from value to value, the first of them from `last`, in the arithmetic of their
type. -/
def stepsFrom {α : Type} [Sub α] (last : α) : List α → List α
  | [] => []
  | value :: values => (value - last) :: stepsFrom value values

@[simp]
theorem length_stepsFrom {α : Type} [Sub α] (last : α) (values : List α) :
    (stepsFrom last values).length = values.length := by
  induction values generalizing last with
  | nil => rfl
  | cons value values ih => simp [stepsFrom, ih]

/-- The sums of the steps are the values, in an arithmetic in which a difference added to what was
taken away gives the value back. -/
theorem runningSums_stepsFrom {α : Type} [Add α] [Sub α] (hcancel : ∀ a b : α, a + (b - a) = b)
    (last : α) (values : List α) : runningSums last (stepsFrom last values) = values := by
  induction values generalizing last with
  | nil => rfl
  | cons value values ih => rw [stepsFrom, runningSums, hcancel, ih]

/-! ## Intervals -/

/-- The interval of a slot is one of those that the slots are put together in. -/
theorem div_lt_intervalCount {size slot : Nat} (h : slot < size) (gapLog2 : Nat) :
    slot / 2 ^ gapLog2 < intervalCount size gapLog2 := by
  have hne : size ≠ 0 := by omega
  rw [intervalCount, if_neg hne, Nat.lt_succ_iff]
  exact Nat.div_le_div_right (by omega)

theorem bmod_toNat (line : UInt32) : Int.bmod line.toNat (2 ^ 32) = line.toInt32.toInt :=
  (BitVec.toInt_eq_toNat_bmod line.toBitVec).symm

@[simp]
theorem size_combineLines (gapLog2 : Nat) (offsets : List UInt8) (bases : Array UInt32) :
    (combineLines gapLog2 offsets bases).size = offsets.length := by
  simp [combineLines]

/-- The line of a slot is the base line of its interval and its offset, in 32 bits. -/
theorem getD_combineLines {gapLog2 slot : Nat} {offsets : List UInt8} {bases : List UInt32}
    (hslot : slot < offsets.length) (hbase : slot / 2 ^ gapLog2 < bases.length) :
    (combineLines gapLog2 offsets bases.toArray).getD slot 0 =
      (bases[slot / 2 ^ gapLog2] + offsets[slot].toUInt32).toInt32.toInt := by
  have hbases : bases.toArray.getD (slot / 2 ^ gapLog2) 0 = bases[slot / 2 ^ gapLog2] := by
    simp [Array.getD, hbase]
  rw [combineLines, Array.getD_eq_getD_getElem?, List.getElem?_toArray, List.getElem?_map,
    List.getElem?_zipIdx, List.getElem?_eq_getElem hslot]
  simp only [Option.map_some, Option.getD_some, Nat.zero_add, hbases, bmod_toNat]

end Image

open Image Reader

/-! ## Tables of lines -/

/-- The lines of a prototype's slots in their small form. -/
structure LineTable where
  /-- The binary logarithm of the count of slots in an interval. -/
  gapLog2 : UInt8
  /-- How far the line of every slot is from the base line of its interval. -/
  offsets : List UInt8
  /-- The base lines of the intervals. -/
  bases : List UInt32
  /-- A shift by the logarithm is one of a 32-bit number. -/
  gap_le : gapLog2 ≤ 31
  /-- There is a base line for every interval up to that of the last slot. -/
  length_bases : bases.length =
    if offsets.length = 0 then 0 else (offsets.length - 1) >>> gapLog2.toNat + 1

namespace LineTable

variable (t : LineTable)

/-- Count of the slots. -/
def size : Nat := t.offsets.length

/-- What stands in a file: the logarithm, a byte for every slot and a word for every interval. -/
def bytes : Bytes :=
  t.gapLog2 :: (stepsFrom 0 t.offsets ++ (stepsFrom 0 t.bases).flatMap Encode.word)

theorem intervalCount_eq : intervalCount t.size t.gapLog2.toNat = t.bases.length := by
  rw [t.length_bases, Nat.shiftRight_eq_div_pow]
  rfl

theorem interval_lt (slot : Fin t.size) : slot.val >>> t.gapLog2.toNat < t.bases.length := by
  rw [Nat.shiftRight_eq_div_pow, ← t.intervalCount_eq]
  exact div_lt_intervalCount slot.isLt _

/-- The line of a slot: the base line of its interval and its offset, as a signed number. -/
def lineOf (slot : Fin t.size) : Int :=
  (t.bases.get ⟨slot.val >>> t.gapLog2.toNat, t.interval_lt slot⟩ +
    (t.offsets.get slot).toUInt32).toInt32.toInt

/-- The sums of what stands in a file are the table again. -/
theorem reads_bytes : Reads (readLines t.size) t.bytes
    (combineLines t.gapLog2.toNat t.offsets t.bases.toArray) := by
  have hbyte : ∀ a b : UInt8, a + (b - a) = b := fun a b => by
    rw [UInt8.add_comm, UInt8.sub_add_cancel]
  have hword : ∀ a b : UInt32, a + (b - a) = b := fun a b => by
    rw [UInt32.add_comm, UInt32.sub_add_cancel]
  have hoffsets := reads_replicate (stepsFrom 0 t.offsets) fun b _ => reads_byte b
  have hbases := reads_replicate (stepsFrom 0 t.bases) fun w _ => reads_word w
  rw [length_stepsFrom, List.map_id', List.flatMap_singleton'] at hoffsets
  rw [length_stepsFrom, List.map_id', ← t.intervalCount_eq] at hbases
  have hgap : ¬ 31 < t.gapLog2 := UInt8.not_lt.2 t.gap_le
  refine (reads_byte t.gapLog2).bind ?_
  rw [if_neg hgap]
  refine hoffsets.bind ?_
  have hread := hbases.map fun steps => combineLines t.gapLog2.toNat
    (runningSums 0 (stepsFrom 0 t.offsets)) (runningSums 0 steps).toArray
  rw [runningSums_stepsFrom hbyte, runningSums_stepsFrom hword] at hread
  rw [runningSums_stepsFrom hbyte]
  exact hread

/-- A table of lines survives being written and read.  The reader takes exactly the bytes of the
table, which without slots are the logarithm alone, and every slot has its line again. -/
theorem lines_survive_reading :
    ∃ lines, Reads (readLines t.size) t.bytes lines ∧ (t.size = 0 → t.bytes = [t.gapLog2]) ∧
      ∀ (p : PrototypeHeader) (slot : Fin t.size),
        { p with lines := some lines }.lineAt slot = t.lineOf slot := by
  refine ⟨_, t.reads_bytes, fun hsize => ?_, fun p slot => ?_⟩
  · have hoffsets : t.offsets = [] := List.length_eq_zero_iff.1 hsize
    have hbases : t.bases = [] := by
      rw [← List.length_eq_zero_iff, ← t.intervalCount_eq, hsize]
      rfl
    simp [bytes, hoffsets, hbases, stepsFrom]
  · have hinterval := t.interval_lt slot
    simp only [Nat.shiftRight_eq_div_pow] at hinterval
    simp only [PrototypeHeader.lineAt, lineOf, Nat.shiftRight_eq_div_pow]
    exact getD_combineLines slot.isLt hinterval

/-- Six slots in two intervals of four.  The first base line is a negative number, and the offsets
and the base lines both wrap around on their way. -/
def twoIntervals : LineTable where
  gapLog2 := 2
  offsets := [250, 3, 20, 0, 7, 255]
  bases := [0xfffffff0, 5]
  gap_le := by decide
  length_bases := rfl

/-- The second slot is before line zero and the last one is after a whole byte of lines. -/
theorem lines_survive_reading_of_two_intervals :
    twoIntervals.bytes =
      [2, 250, 9, 17, 236, 7, 248, 0xf0, 0xff, 0xff, 0xff, 0x15, 0x00, 0x00, 0x00] ∧
    ∃ lines, Reads (readLines 6) twoIntervals.bytes lines ∧
      ∀ p : PrototypeHeader, (List.range 6).map { p with lines := some lines }.lineAt =
        [234, -13, 4, -16, 12, 260] := by
  obtain ⟨lines, hreads, -, hlines⟩ := twoIntervals.lines_survive_reading
  refine ⟨by decide, lines, hreads, fun p => ?_⟩
  have hall : (List.range 6).map { p with lines := some lines }.lineAt =
      (List.finRange 6).map twoIntervals.lineOf := by
    rw [← List.map_coe_finRange_eq_range, List.map_map]
    exact List.map_congr_left fun slot _ => hlines p slot
  rw [hall]
  decide

end LineTable

end ScriptMachine
