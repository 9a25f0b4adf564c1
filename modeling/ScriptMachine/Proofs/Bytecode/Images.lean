import ScriptMachine.Proofs.Bytecode.Lines

/-!
# Reading what was assembled

The bytes of a draft are read back as its image.  Constants, code, lines and prototypes are read one
after the other, each exactly where its writer has put it.
-/

namespace ScriptMachine

open Reader

/-! ## Constants -/

/-- The constant that is read where a draft has one. -/
def DraftConstant.image (strings : List Bytes) : DraftConstant → Constant
  | .nil => .nil
  | .boolean b => .boolean b
  | .number n => .number n
  | .string i => .string (if i = 0 then none else strings[i.toNat - 1]?)
  | .importPath id => .importPath id
  | .table keys => .table (keys.map UInt32.toNat)
  | .closure index => .closure index.toNat
  | .vector v => .vector (.vector v)

/-- What a constant refers to is there, and its counts can be written. -/
def DraftConstant.Readable (strings : List Bytes) : DraftConstant → Prop
  | .string i => i.toNat ≤ strings.length
  | .table keys => keys.length < 2 ^ 32
  | _ => True

namespace Image

theorem reads_stringAt {strings : List Bytes} {number : Nat} {s : Bytes} (hpos : number ≠ 0)
    (hs : strings[number - 1]? = some s) : Reads (readStringAt strings number) [] s := by
  obtain ⟨n, rfl⟩ := Nat.exists_eq_succ_of_ne_zero hpos
  simp only [readStringAt, hs]
  exact Reads.pure s

theorem getElem?_of_number {strings : List Bytes} {number : UInt32} (hpos : number ≠ 0)
    (hle : number.toNat ≤ strings.length) : ∃ s, strings[number.toNat - 1]? = some s := by
  have hne : number.toNat ≠ 0 := fun h => hpos (UInt32.toNat_inj.1 h)
  exact ⟨_, List.getElem?_eq_getElem (by omega)⟩

theorem reads_vector (v : Vector4) :
    Reads (do return (Constant.vector (.vector ⟨← single, ← single, ← single, ← single⟩)))
      (v.toList.flatMap Encode.single) (.vector (.vector v)) := by
  simp only [Vector4.toList, List.flatMap_cons, List.flatMap_nil]
  refine (reads_single v.x).bind ?_
  refine (reads_single v.y).bind ?_
  refine (reads_single v.z).bind ?_
  refine (reads_single v.w).bind ?_
  exact Reads.pure _

theorem reads_constant {strings : List Bytes} {c : DraftConstant} (hc : c.Readable strings) :
    Reads (readConstant strings) (PrototypeDraft.encodeConstant c) (c.image strings) := by
  cases c with
  | nil =>
    refine (reads_byte 0).bind ?_
    simp only [UInt8.reduceToNat]
    exact Reads.pure _
  | boolean b =>
    refine (reads_byte 1).bind ?_
    simp only [UInt8.reduceToNat]
    exact (reads_flag b).map Constant.boolean
  | number n =>
    refine (reads_byte 2).bind ?_
    simp only [UInt8.reduceToNat]
    exact (reads_double n).map Constant.number
  | string i =>
    refine (reads_byte 3).bind ?_
    simp only [UInt8.reduceToNat]
    rw [← List.append_nil (Encode.varint i.toNat), DraftConstant.image]
    refine (reads_varint i.toNat_lt).bind ?_
    by_cases hzero : i = 0
    · subst hzero
      exact Reads.pure _
    · obtain ⟨s, hs⟩ := getElem?_of_number hzero hc
      have hne : i.toNat ≠ 0 := fun h => hzero (UInt32.toNat_inj.1 h)
      rw [if_neg hne, if_neg hzero, hs]
      exact (reads_stringAt hne hs).map fun s => Constant.string (some s)
  | importPath id =>
    refine (reads_byte 4).bind ?_
    simp only [UInt8.reduceToNat]
    exact (reads_word id).map Constant.importPath
  | table keys =>
    refine (reads_byte 5).bind ?_
    simp only [UInt8.reduceToNat]
    exact (reads_counted hc fun key _ => reads_varint key.toNat_lt).map Constant.table
  | closure index =>
    refine (reads_byte 6).bind ?_
    simp only [UInt8.reduceToNat]
    exact (reads_varint index.toNat_lt).map Constant.closure
  | vector v =>
    refine (reads_byte 7).bind ?_
    simp only [UInt8.reduceToNat]
    exact reads_vector v

end Image

/-! ## Code -/

/-- The instructions that a sequence of words makes, if every word that is not auxiliary has a known
operation and every operation that takes an auxiliary word has one. -/
def CodeUnit.parse? : List UInt32 → Option (List CodeUnit)
  | [] => some []
  | word :: words =>
    match Opcode.ofNat? (Word.opcodeNumber word) with
    | none => none
    | some opcode =>
      if opcode.info.hasAux then
        match words with
        | [] => none
        | aux :: words => (parse? words).map (⟨opcode, word, some aux⟩ :: ·)
      else (parse? words).map (⟨opcode, word, none⟩ :: ·)

namespace Image

theorem reads_code (index size : Nat) (words : List UInt32) :
    ∀ units, CodeUnit.parse? words = some units →
      Reads (readCode id index size words.length) (words.flatMap Encode.word) units := by
  fun_induction CodeUnit.parse? words with
  | case1 =>
    rintro units ⟨⟩
    exact Reads.pure _
  | case2 word words hop => rintro units ⟨⟩
  | case3 word opcode hop haux => rintro units ⟨⟩
  | case4 word opcode hop haux aux words ih =>
    intro units h
    obtain ⟨others, hothers, rfl⟩ := Option.map_eq_some_iff.1 h
    rw [List.length_cons, readCode, List.flatMap_cons, List.flatMap_cons]
    refine (reads_word word).bind ?_
    simp only [id, hop, haux, if_true]
    refine (reads_word aux).bind ?_
    exact (ih others hothers).map _
  | case5 word words opcode hop haux ih =>
    intro units h
    obtain ⟨others, hothers, rfl⟩ := Option.map_eq_some_iff.1 h
    rw [List.length_cons, readCode, List.flatMap_cons]
    refine (reads_word word).bind ?_
    simp only [id, hop, haux]
    exact (ih others hothers).map _

theorem reads_references {index count : Nat} {references : List Int}
    (h : ∀ r ∈ references, 0 ≤ r ∧ r < count) :
    Reads (checkReferences index count references) [] () := by
  induction references with
  | nil => exact Reads.pure _
  | cons r references ih =>
    rw [List.forall_mem_cons] at h
    rw [checkReferences, if_pos h.1]
    exact ih h.2

/-! ## Lines -/

theorem stepsFrom_zero (n : Nat) :
    stepsFrom (0 : UInt8) (List.replicate n 0) = List.replicate n 0 := by
  induction n with
  | zero => rfl
  | succ n ih => rw [List.replicate_succ, stepsFrom, UInt8.sub_zero, ih]

theorem lineSteps_eq (last : Int32) (lines : List Int32) :
    PrototypeDraft.lineSteps last lines = stepsFrom last.toUInt32 (lines.map Int32.toUInt32) := by
  induction lines generalizing last with
  | nil => rfl
  | cons line lines ih =>
    rw [PrototypeDraft.lineSteps, ih, List.map_cons, stepsFrom, Int32.toUInt32_sub]

end Image

namespace LineTable

open Image

/-- The table of a draft, in which every slot is an interval of its own. -/
def ofLines (lines : List Int32) : LineTable where
  gapLog2 := 0
  offsets := List.replicate lines.length 0
  bases := lines.map Int32.toUInt32
  gap_le := by decide
  length_bases := by
    cases lines with
    | nil => rfl
    | cons line lines => simp

theorem bytes_ofLines (lines : List Int32) :
    (ofLines lines).bytes = PrototypeDraft.encodeLines lines := by
  rw [bytes, ofLines, stepsFrom_zero, PrototypeDraft.encodeLines, lineSteps_eq]
  rfl

end LineTable

namespace Image

/-- With an interval for every word, the lines are the base lines. -/
theorem combineLines_zero (lines : List Int32) :
    combineLines 0 (List.replicate lines.length 0) (lines.map Int32.toUInt32).toArray =
      (lines.map Int32.toInt).toArray := by
  refine Array.ext (by simp) fun i hi hi' => ?_
  have hoffset : i < (List.replicate lines.length (0 : UInt8)).length := by simpa using hi
  have hbase : i / 2 ^ 0 < (lines.map Int32.toUInt32).length := by simpa using hi
  rw [Array.getElem_eq_getD (h := hi) 0, getD_combineLines hoffset hbase]
  simp

theorem reads_lines (lines : List Int32) :
    Reads (readLines lines.length) (PrototypeDraft.encodeLines lines)
      (lines.map Int32.toInt).toArray := by
  have hread := (LineTable.ofLines lines).reads_bytes
  have hsize : (LineTable.ofLines lines).size = lines.length := List.length_replicate
  rw [LineTable.bytes_ofLines, hsize] at hread
  rw [← combineLines_zero]
  exact hread

end Image

/-! ## Prototypes -/

namespace PrototypeDraft

/-- The instructions that the words of a prototype make. -/
def units (p : PrototypeDraft) : List CodeUnit :=
  (CodeUnit.parse? (p.words.toList.map Prod.fst)).getD []

/-- The image of a prototype. -/
def image (strings : List Bytes) (index : Nat) (p : PrototypeDraft) : PrototypeImage where
  index := index
  maxStackSize := p.maxStackSize
  numParams := p.numParams
  numUpvalues := p.numUpvalues
  isVararg := p.isVararg
  flags := 0
  children := p.children.toList.map UInt32.toNat
  lineDefined := p.lineDefined.toNat
  name := if p.name = 0 then Image.unnamed else strings.getD (p.name.toNat - 1) []
  lines := if p.hasLines then some (p.words.map fun entry => entry.2.toInt) else none
  code := p.units
  constants := p.constants.toList.map (DraftConstant.image strings)

/-- The words of a prototype make instructions, what these and the constants refer to is there, and
all counts can be written. -/
structure Readable (strings : List Bytes) (p : PrototypeDraft) : Prop where
  /-- The words make instructions. -/
  code : CodeUnit.parse? (p.words.toList.map Prod.fst) = some p.units
  /-- The constants that the instructions refer to are there. -/
  references : ∀ u ∈ p.units, ∀ r ∈ u.references, 0 ≤ r ∧ r < (p.constants.size : Int)
  /-- The constants can be read. -/
  constants : ∀ c ∈ p.constants, c.Readable strings
  /-- The name is there. -/
  name : p.name.toNat ≤ strings.length
  /-- The count of words can be written. -/
  words_size : p.words.size < 2 ^ 32
  /-- The count of constants can be written. -/
  constants_size : p.constants.size < 2 ^ 32
  /-- The count of children can be written. -/
  children_size : p.children.size < 2 ^ 32

end PrototypeDraft

namespace Image

theorem reads_name {strings : List Bytes} {i : UInt32} (hi : i.toNat ≤ strings.length) :
    Reads (readName strings) (Encode.varint i.toNat)
      (if i = 0 then unnamed else strings.getD (i.toNat - 1) []) := by
  rw [← List.append_nil (Encode.varint i.toNat), readName]
  refine (reads_varint i.toNat_lt).bind ?_
  by_cases hzero : i = 0
  · subst hzero
    exact Reads.pure _
  · obtain ⟨s, hs⟩ := getElem?_of_number hzero hi
    have hne : i.toNat ≠ 0 := fun h => hzero (UInt32.toNat_inj.1 h)
    rw [if_neg hne, if_neg hzero, List.getD_eq_getElem?_getD, hs]
    exact reads_stringAt hne hs

theorem reads_noTypes : Reads skipTypes (Encode.varint 0) () := by
  rw [← List.append_nil (Encode.varint 0), skipTypes]
  refine (reads_varint (by decide)).bind ?_
  exact (reads_take []).map fun _ => ()

section Optional

variable {α : Type} {bytes : Bytes} {a : α}

/-- The flags and the type annotations, from the fourth version of the format on. -/
theorem reads_flags (version : UInt8) {rest : UInt8 → Reader α}
    (h : Reads (rest 0) bytes a) :
    Reads (if 4 ≤ version then do
        let flags ← byte
        skipTypes
        let flags ← pure flags
        rest flags
      else do
        let flags ← pure 0
        rest flags) ((if 4 ≤ version then 0 :: Encode.varint 0 else []) ++ bytes) a := by
  by_cases hversion : 4 ≤ version
  · rw [if_pos hversion, if_pos hversion]
    refine (reads_byte 0).bind ?_
    exact reads_noTypes.bind h
  · rw [if_neg hversion, if_neg hversion]
    exact h

/-- The lines, if there are any. -/
theorem reads_optionalLines {hasLines : Bool} {lines : List Int32} {size : Nat}
    {rest : Option (Array Int) → Reader α} (hsize : lines.length = size)
    (h : Reads (rest (if hasLines then some (lines.map Int32.toInt).toArray else none)) bytes a) :
    Reads (do
        if ← flag then
          let lines ← (do return some (← readLines size))
          rest lines
        else
          let lines ← pure none
          rest lines)
      (Encode.flag hasLines ++
        ((if hasLines then PrototypeDraft.encodeLines lines else []) ++ bytes)) a := by
  subst hsize
  refine (reads_flag hasLines).bind ?_
  cases hasLines with
  | false => exact h
  | true => exact ((reads_lines lines).map some).bind h

/-- The names of variables, which drafts do not have. -/
theorem reads_noNames {rest : Reader α} (h : Reads rest [] a) :
    Reads (do
        if ← flag then
          skipNames
          rest
        else rest) [0] a :=
  (reads_flag false).bind h

end Optional

theorem reads_prototype {version : UInt8} {strings : List Bytes} {index : Nat}
    {p : PrototypeDraft} (hp : p.Readable strings) :
    Reads (readPrototype id version strings index) (PrototypeDraft.encode version p)
      (p.image strings index) := by
  have hcode := reads_code index p.words.size (p.words.toList.map Prod.fst) p.units hp.code
  rw [List.length_map, Array.length_toList, List.flatMap_map] at hcode
  have hconstants : Reads (counted (readConstant strings))
      (Encode.counted PrototypeDraft.encodeConstant p.constants.toList)
      (p.constants.toList.map (DraftConstant.image strings)) :=
    reads_counted hp.constants_size fun c hc => reads_constant (hp.constants c (by simpa using hc))
  have hreferences : Reads (checkReferences index
      (p.constants.toList.map (DraftConstant.image strings)).length
      (p.units.flatMap CodeUnit.references)) [] () := by
    refine reads_references fun r hr => ?_
    obtain ⟨u, hu, hr⟩ := List.mem_flatMap.1 hr
    rw [List.length_map, Array.length_toList]
    exact hp.references u hu r hr
  have hchildren : Reads (counted varint)
      (Encode.counted (fun child : UInt32 => Encode.varint child.toNat) p.children.toList)
      (p.children.toList.map UInt32.toNat) :=
    reads_counted hp.children_size fun child _ => reads_varint child.toNat_lt
  have hlines : ((p.words.toList.map fun entry => entry.2).map Int32.toInt).toArray =
      p.words.map fun entry => entry.2.toInt := by
    rw [List.map_map]
    exact Array.toList_inj.1 (by simp)
  rw [readPrototype, PrototypeDraft.encode]
  have hwords : Encode.counted (fun entry : UInt32 × Int32 => Encode.word entry.1)
      p.words.toList = Encode.varint p.words.size ++
        p.words.toList.flatMap fun entry => Encode.word entry.1 := rfl
  simp only [hwords, List.append_assoc, List.cons_append, List.nil_append]
  refine (reads_byte p.maxStackSize).bind ?_
  refine (reads_byte p.numParams).bind ?_
  refine (reads_byte p.numUpvalues).bind ?_
  refine (reads_flag p.isVararg).bind ?_
  refine reads_flags version ?_
  refine (reads_varint hp.words_size).bind ?_
  refine hcode.bind ?_
  refine hconstants.bind ?_
  rw [← List.nil_append (Encode.counted _ p.children.toList ++ _)]
  refine hreferences.bind ?_
  refine hchildren.bind ?_
  refine (reads_varint p.lineDefined.toNat_lt).bind ?_
  refine (reads_name hp.name).bind ?_
  refine reads_optionalLines (by simp) ?_
  refine reads_noNames ?_
  rw [hlines]
  exact Reads.pure _

/-- Prototypes one after the other are read as their images. -/
theorem reads_prototypes {version : UInt8} {strings : List Bytes} {ps : List PrototypeDraft}
    (index : Nat) (h : ∀ p ∈ ps, p.Readable strings) :
    Reads (readPrototypes id version strings ps.length index)
      (ps.flatMap (PrototypeDraft.encode version))
      (ps.mapIdx fun i p => p.image strings (index + i)) := by
  induction ps generalizing index with
  | nil => exact Reads.pure []
  | cons p ps ih =>
    rw [List.forall_mem_cons] at h
    have hothers := ih (index + 1) h.2
    simp only [Nat.add_assoc, Nat.add_comm 1] at hothers
    rw [List.length_cons, readPrototypes, List.flatMap_cons, List.mapIdx_cons]
    exact (reads_prototype h.1).bind (hothers.map _)

end Image

end ScriptMachine
