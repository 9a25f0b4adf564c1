import Mathlib
import ScriptMachine.Bytecode.Link
import ScriptMachine.Proofs.Bytecode.Acceptance
import ScriptMachine.Proofs.Bytecode.RoundTrip

/-!
# Loaded modules are well formed

Well-formedness of a module is said in terms of the bits of its words and of the tables of its
prototypes: which field of which word an operand is, and which constant an instruction names.
Every module that loading gives is well formed, whatever bytes and options it was given.
-/

namespace ScriptMachine

/-! ## Words as bits -/

/-- The operands that a word holds in a format, cut out of its bits; the last two are signed. -/
def OperandFormat.cut (format : OperandFormat) (word : BitVec 32) : Operands :=
  let a := (word.extractLsb' 8 8).toNat
  let b := (word.extractLsb' 16 8).toNat
  match format with
  | .none => {}
  | .a => { a }
  | .ab => { a, b }
  | .abc => { a, b, c := (word.extractLsb' 24 8).toNat }
  | .ad => { a, d := (word.extractLsb' 16 16).toInt }
  | .ae => { e := (word.extractLsb' 8 24).toInt }

section Fields

variable (w : UInt32)

theorem toNat_cut (start length : Nat) :
    (w.toBitVec.extractLsb' start length).toNat = w.toNat / 2 ^ start % 2 ^ length := by
  rw [BitVec.extractLsb'_toNat, UInt32.toNat_toBitVec, Nat.shiftRight_eq_div_pow]

/-- The upper bits of a word need no cutting. -/
theorem toNat_cut_upper {start length : Nat} (h : start + length = 32) :
    (w.toBitVec.extractLsb' start length).toNat = w.toNat / 2 ^ start := by
  rw [toNat_cut, Nat.mod_eq_of_lt]
  refine Nat.div_lt_of_lt_mul ?_
  rw [← Nat.pow_add, h]
  exact w.toNat_lt

theorem operands_eq_cut (format : OperandFormat) : format.operands w = format.cut w.toBitVec := by
  have ha : Word.fieldA w = (w.toBitVec.extractLsb' 8 8).toNat := (toNat_cut w 8 8).symm
  have hb : Word.fieldB w = (w.toBitVec.extractLsb' 16 8).toNat := (toNat_cut w 16 8).symm
  have hc : Word.fieldC w = (w.toBitVec.extractLsb' 24 8).toNat := (toNat_cut_upper w rfl).symm
  have hd : Word.fieldD w = (w.toBitVec.extractLsb' 16 16).toInt := by
    rw [BitVec.toInt_eq_toNat_bmod, toNat_cut_upper w rfl]
    rfl
  have he : Word.fieldE w = (w.toBitVec.extractLsb' 8 24).toInt := by
    rw [BitVec.toInt_eq_toNat_bmod, toNat_cut_upper w rfl]
    rfl
  cases format <;> simp only [OperandFormat.operands, OperandFormat.cut, ha, hb, hc, hd, he]

end Fields

/-! ## What instructions name -/

namespace Instruction

/-- The constant that an instruction names among some. -/
def namedConstant? (i : Instruction) (constants : Array Constant) : Option Constant :=
  match i.opcode.info.constant with
  | .none | .auxImport => some .nil
  | .aux => constants[i.aux.toNat]?
  | .b => constants[i.operands.b]?
  | .c => constants[i.operands.c]?
  | .d => if i.operands.d < 0 then none else constants[i.operands.d.toNat]?
  | .auxFlag => some (.boolean (i.aux.toBitVec.getLsbD 0))
  | .auxIndex => constants[(i.aux.toBitVec.extractLsb' 0 24).toNat]?
  | .auxCount => some (.number (Number.ofNat (i.aux.toBitVec.extractLsb' 0 4).toNat))

/-- Whether an instruction says that its test is negated. -/
def namedNegation (i : Instruction) : Bool :=
  match i.opcode.info.constant with
  | .auxFlag | .auxIndex => i.aux.toBitVec.msb
  | _ => false

/-- The step of a path that a constant is, nil if the path has no such step. -/
def namedStep? (constants : Array Constant) (present : Prop) [Decidable present] (index : Nat) :
    Option Value :=
  if present then constants[index]?.map Constant.value else some .nil

/-- The path of globals that an instruction names among some constants: its count of steps, and the
steps. -/
def namedPath? (i : Instruction) (constants : Array Constant) :
    Option (Nat × Value × Value × Value) :=
  match i.opcode.info.constant with
  | .auxImport => do
    let count := (i.aux.toBitVec.extractLsb' 30 2).toNat
    let first ← namedStep? constants True (i.aux.toBitVec.extractLsb' 20 10).toNat
    let second ← namedStep? constants (2 ≤ count) (i.aux.toBitVec.extractLsb' 10 10).toNat
    let third ← namedStep? constants (3 ≤ count) (i.aux.toBitVec.extractLsb' 0 10).toNat
    return (count, first, second, third)
  | _ => some (0, .nil, .nil, .nil)

/-- The instruction is what its words say, and what it refers to is what they name. -/
structure WellFormed (constants : Array Constant) (i : Instruction) : Prop where
  /-- Its own operation is the one that runs. -/
  underlying : i.opcode = i.underlying
  /-- The operation is one of the machine's. -/
  opcode_le : i.opcode.toNat ≤ 82
  /-- The low byte of the word numbers it. -/
  opcode_word : i.opcode.toNat = (i.word.toBitVec.extractLsb' 0 8).toNat
  /-- The operands are the fields of the word. -/
  operands : i.operands = i.opcode.info.operands.cut i.word.toBitVec
  /-- The constant is the one that is named. -/
  constant : i.namedConstant? constants = some i.constant
  /-- The negation is the one that is named. -/
  negated : i.negated = i.namedNegation
  /-- The path of globals is the one that is named. -/
  path : i.namedPath? constants = some (i.path.count, i.path.first, i.path.second, i.path.third)

end Instruction

theorem Opcode.toNat_all : ∀ i : Fin all.size, all[i].toNat = i := by
  decide

theorem Opcode.toNat_of_ofNat? {n : Nat} {op : Opcode} (h : ofNat? n = some op) :
    op.toNat = n ∧ n ≤ 82 := by
  obtain ⟨hn, rfl⟩ := Array.getElem?_eq_some_iff.1 h
  exact ⟨toNat_all ⟨n, hn⟩, Nat.le_of_lt_succ hn⟩

namespace AuxWord

variable (aux : UInt32)

theorem flag_eq_bit : flag aux = aux.toBitVec.getLsbD 0 := by
  rw [BitVec.getLsbD, UInt32.toNat_toBitVec, Nat.testBit_zero]
  rfl

theorem negated_eq_msb : negated aux = aux.toBitVec.msb := by
  rw [BitVec.msb_eq_decide]
  rfl

theorem count_eq_cut : count aux = (aux.toBitVec.extractLsb' 0 4).toNat := by
  rw [toNat_cut, pow_zero, Nat.div_one]
  rfl

theorem index_eq_cut : index aux = (aux.toBitVec.extractLsb' 0 24).toNat := by
  rw [toNat_cut, pow_zero, Nat.div_one]
  rfl

theorem pathLength_eq_cut : pathLength aux = (aux.toBitVec.extractLsb' 30 2).toNat :=
  (toNat_cut_upper aux rfl).symm

theorem pathIndices_eq_cut : pathIndices aux =
    ((aux.toBitVec.extractLsb' 20 10).toNat, (aux.toBitVec.extractLsb' 10 10).toNat,
      (aux.toBitVec.extractLsb' 0 10).toNat) := by
  rw [toNat_cut, toNat_cut, toNat_cut, pow_zero, Nat.div_one]
  rfl

end AuxWord

namespace LoadOptions

variable {options : LoadOptions} {heap : Heap} {constants : Array Constant} {u : CodeUnit}

/-- A linked instruction has the constant that its words name. -/
theorem namedConstant?_linkInstruction
    (hrange : ∀ r ∈ u.references, 0 ≤ r ∧ r < (constants.size : Int)) :
    (options.linkInstruction heap constants u).namedConstant? constants =
      some (options.linkInstruction heap constants u).constant := by
  obtain ⟨hopcode, -, -, hoperands, haux⟩ :=
    @linkInstruction_base options heap constants u
  have hnamed : ∀ r, u.references = [r] → u.opcode.info.constant ≠ .auxImport →
      constants[r.toNat]? = some (options.linkInstruction heap constants u).constant := by
    intro r hreferences hformat
    have hr : r ∈ u.references := hreferences ▸ List.mem_singleton_self r
    exact linkInstruction_constant options heap hformat hrange hr
  rw [Instruction.namedConstant?, hopcode, hoperands, haux]
  cases hformat : u.opcode.info.constant with
  | none | auxImport => rw [linkInstruction, hformat]
  | aux => exact hnamed u.auxWord.toNat (by rw [CodeUnit.references, hformat]) (by simp [hformat])
  | b => exact hnamed u.operands.b (by rw [CodeUnit.references, hformat]) (by simp [hformat])
  | c => exact hnamed u.operands.c (by rw [CodeUnit.references, hformat]) (by simp [hformat])
  | d =>
    have hreferences : u.references = [u.operands.d] := by rw [CodeUnit.references, hformat]
    have hd := (hrange u.operands.d (hreferences ▸ List.mem_singleton_self _)).1
    rw [if_neg (Int.not_lt.2 hd)]
    exact hnamed u.operands.d hreferences (by simp [hformat])
  | auxIndex =>
    rw [← AuxWord.index_eq_cut]
    exact hnamed (AuxWord.index u.auxWord) (by rw [CodeUnit.references, hformat])
      (by simp [hformat])
  | auxFlag => rw [linkInstruction, hformat, ← AuxWord.flag_eq_bit]
  | auxCount => rw [linkInstruction, hformat, ← AuxWord.count_eq_cut]

theorem negated_linkInstruction :
    (options.linkInstruction heap constants u).negated =
      (options.linkInstruction heap constants u).namedNegation := by
  obtain ⟨hopcode, -, -, -, haux⟩ := @linkInstruction_base options heap constants u
  rw [Instruction.namedNegation, hopcode, haux]
  cases hformat : u.opcode.info.constant with
  | auxFlag | auxIndex => rw [linkInstruction, hformat, ← AuxWord.negated_eq_msb]
  | none | aux | b | c | d | auxImport | auxCount => rw [linkInstruction, hformat]

/-- The steps that a path has are among the references of its instruction. -/
theorem steps_mem_references (hformat : u.opcode.info.constant = .auxImport) :
    ((AuxWord.pathIndices u.auxWord).1 : Int) ∈ u.references ∧
      (2 ≤ AuxWord.pathLength u.auxWord →
        ((AuxWord.pathIndices u.auxWord).2.1 : Int) ∈ u.references) ∧
      (3 ≤ AuxWord.pathLength u.auxWord →
        ((AuxWord.pathIndices u.auxWord).2.2 : Int) ∈ u.references) := by
  rw [CodeUnit.references, hformat]
  dsimp only
  generalize AuxWord.pathLength u.auxWord = count
  rcases count with _ | _ | _ | count <;> simp

/-- The steps that a path lacks are nil. -/
theorem linkPath_absent (aux : UInt32) :
    (¬ 2 ≤ AuxWord.pathLength aux → (options.linkPath heap constants aux).second = .nil) ∧
      (¬ 3 ≤ AuxWord.pathLength aux → (options.linkPath heap constants aux).third = .nil) := by
  unfold linkPath
  dsimp only
  split
  · split <;> exact ⟨fun h => by simp [h], fun h => by simp [h]⟩
  · exact ⟨fun h => by simp [h], fun h => by simp [h]⟩

theorem namedStep?_eq {present : Prop} [Decidable present] {index : Nat} {value : Value}
    (hthere : present →
      (index : Int) < constants.size ∧ value = (constants.getD index .nil).value)
    (habsent : ¬ present → value = .nil) :
    Instruction.namedStep? constants present index = some value := by
  rw [Instruction.namedStep?]
  split
  · rename_i hpresent
    obtain ⟨hindex, rfl⟩ := hthere hpresent
    rw [Array.getD_eq_getD_getElem?, Array.getElem?_eq_getElem (by omega), Option.getD_some,
      Option.map_some]
  · rename_i hpresent
    rw [habsent hpresent]

/-- A linked instruction has the path of globals that its words name. -/
theorem namedPath?_linkInstruction
    (hrange : ∀ r ∈ u.references, 0 ≤ r ∧ r < (constants.size : Int)) :
    (options.linkInstruction heap constants u).namedPath? constants =
      some ((options.linkInstruction heap constants u).path.count,
        (options.linkInstruction heap constants u).path.first,
        (options.linkInstruction heap constants u).path.second,
        (options.linkInstruction heap constants u).path.third) := by
  obtain ⟨hopcode, -, -, -, haux⟩ := @linkInstruction_base options heap constants u
  rw [Instruction.namedPath?, hopcode, haux]
  cases hformat : u.opcode.info.constant with
  | auxImport =>
    have hpath : (options.linkInstruction heap constants u).path =
        options.linkPath heap constants u.auxWord := by
      rw [linkInstruction, hformat]
    obtain ⟨hcount, hfirst, hsecond, hthird⟩ := linkPath_steps options heap constants u.auxWord
    obtain ⟨hnoSecond, hnoThird⟩ :=
      @linkPath_absent options heap constants u.auxWord
    obtain ⟨hmem₁, hmem₂, hmem₃⟩ := steps_mem_references hformat
    rw [AuxWord.pathIndices_eq_cut] at hfirst hsecond hthird hmem₁ hmem₂ hmem₃
    rw [AuxWord.pathLength_eq_cut] at hcount hsecond hthird hnoSecond hnoThird hmem₂ hmem₃
    dsimp only
    rw [hpath, hcount,
      namedStep?_eq (fun _ => ⟨(hrange _ hmem₁).2, hfirst⟩) fun h => absurd trivial h,
      namedStep?_eq (fun h => ⟨(hrange _ (hmem₂ h)).2, hsecond h⟩) hnoSecond,
      namedStep?_eq (fun h => ⟨(hrange _ (hmem₃ h)).2, hthird h⟩) hnoThird]
    rfl
  | none | aux | b | c | d | auxFlag | auxIndex | auxCount => rw [linkInstruction, hformat]

/-- A linked instruction is what its words say. -/
theorem wellFormed_linkInstruction (hu : u.Sound)
    (hrange : ∀ r ∈ u.references, 0 ≤ r ∧ r < (constants.size : Int)) :
    (options.linkInstruction heap constants u).WellFormed constants := by
  obtain ⟨hopcode, hunderlying, hword, hoperands, -⟩ :=
    @linkInstruction_base options heap constants u
  obtain ⟨hnumber, hle⟩ := Opcode.toNat_of_ofNat? hu.opcode
  refine ⟨?_, ?_, ?_, ?_, namedConstant?_linkInstruction hrange, negated_linkInstruction,
    namedPath?_linkInstruction hrange⟩
  · rw [hopcode, hunderlying]
  · rw [hopcode, hnumber]
    exact hle
  · rw [hopcode, hnumber, hword, toNat_cut, pow_zero, Nat.div_one]
    rfl
  · rw [hoperands, hopcode, hword, CodeUnit.operands, operands_eq_cut]

end LoadOptions

/-! ## Slots -/

/-- Auxiliary words stand behind the instructions that have one, hold its value, and stand nowhere
else. -/
structure Slot.Aligned (slots : List Slot) : Prop where
  /-- The first slot is an instruction. -/
  first : ∀ w, slots[0]? ≠ some (.aux w)
  /-- Any other slot is an auxiliary word when the one before it is an instruction with one. -/
  next : ∀ (k : Nat) w, slots[k + 1]? = some (.aux w) ↔
    ∃ i, slots[k]? = some (.instruction i) ∧ i.opcode.info.hasAux = true ∧ i.aux = w

namespace Slot

variable {slots : List Slot} {i : Instruction}

theorem aligned_nil : Aligned [] where
  first w := by simp
  next k w := by simp

theorem Aligned.cons (h : Aligned slots) (hi : i.opcode.info.hasAux = false) :
    Aligned (.instruction i :: slots) where
  first w := by simp
  next k w := by
    cases k with
    | zero => simpa [hi] using h.first w
    | succ k => exact h.next k w

theorem Aligned.cons_aux (h : Aligned slots) (hi : i.opcode.info.hasAux = true) :
    Aligned (.instruction i :: .aux i.aux :: slots) where
  first w := by simp
  next k w := by
    match k with
    | 0 => simp [hi]
    | 1 => simpa using h.first w
    | k + 2 => exact h.next k w

end Slot

namespace LoadOptions

variable {options : LoadOptions} {heap : Heap} {constants : Array Constant}

/-- The slots of some units take as much room as the units say. -/
theorem length_linkUnits (units : List CodeUnit) :
    (units.flatMap (options.linkUnit heap constants)).length = CodeUnit.totalSize units := by
  induction units with
  | nil => rfl
  | cons u units ih =>
    rw [List.flatMap_cons, List.length_append, ih, CodeUnit.totalSize_cons, linkUnit, CodeUnit.size]
    cases u.aux <;> rfl

theorem aligned_linkUnits {units : List CodeUnit} (h : ∀ u ∈ units, u.Sound) :
    Slot.Aligned (units.flatMap (options.linkUnit heap constants)) := by
  induction units with
  | nil => exact Slot.aligned_nil
  | cons u units ih =>
    obtain ⟨hu, hunits⟩ := List.forall_mem_cons.1 h
    obtain ⟨hopcode, -, -, -, haux⟩ := @linkInstruction_base options heap constants u
    have hinfo := hu.aux
    rw [← hopcode] at hinfo
    rw [List.flatMap_cons, linkUnit]
    cases hword : u.aux with
    | none =>
      rw [hword] at hinfo
      exact (ih hunits).cons hinfo.symm
    | some word =>
      rw [hword] at hinfo
      have hvalue : (options.linkInstruction heap constants u).aux = word := by
        rw [haux, CodeUnit.auxWord, hword, Option.getD_some]
      subst hvalue
      exact (ih hunits).cons_aux hinfo.symm

/-- The instructions of linked code are linked instructions. -/
theorem exists_unit_of_slot {units : List CodeUnit} {k : Nat} {i : Instruction}
    (h : (units.flatMap (options.linkUnit heap constants))[k]? = some (.instruction i)) :
    ∃ u ∈ units, i = options.linkInstruction heap constants u := by
  obtain ⟨u, hu, hi⟩ := List.mem_flatMap.1 (List.mem_of_getElem? h)
  rw [linkUnit, List.mem_cons] at hi
  rcases hi with hi | hi
  · cases hi
    exact ⟨u, hu, rfl⟩
  · cases haux : u.aux with
    | none => simp [haux] at hi
    | some word => simp [haux] at hi

end LoadOptions

/-! ## Prototypes -/

/-- What the prototype refers to is there among `count` prototypes, its code is made of well-formed
instructions and their auxiliary words, and its lines, if known, are those of its slots. -/
structure Prototype.WellFormed (count : Nat) (p : Prototype) : Prop where
  /-- The children are there. -/
  children : ∀ child ∈ p.children, child < count
  /-- The prototypes of closure constants are there. -/
  closures : ∀ index, .closure index ∈ p.constants → index < count
  /-- The instructions are well formed. -/
  instructions : ∀ (k : Nat) i, p.code[k]? = some (.instruction i) → i.WellFormed p.constants
  /-- Auxiliary words stand behind the instructions that have one. -/
  aligned : Slot.Aligned p.code.toList
  /-- Every slot has a line, and nothing else has one. -/
  lines : ∀ lines, p.lines = some lines → lines.size = p.code.size

/-- All elements on the right of a pointwise relation have a property that the relation gives
them. -/
theorem forall_of_forall₂ {α β : Type} {Q : β → Prop} {as : List α} {bs : List β}
    (h : List.Forall₂ (fun _ b => Q b) as bs) : ∀ b ∈ bs, Q b := by
  induction h with
  | nil => exact fun b hb => absurd hb List.not_mem_nil
  | cons hb _ ih => exact List.forall_mem_cons.2 ⟨hb, ih⟩

/-- Steps one after the other relate their arguments to their results. -/
theorem forall₂_mapM {σ α β : Type} {f : α → StateM σ β} {R : α → β → Prop}
    (h : ∀ a s, R a (f a s).1) (items : List α) (s : σ) :
    List.Forall₂ R items (items.mapM f s).1 := by
  induction items generalizing s with
  | nil => exact .nil
  | cons item items ih =>
    rw [List.mapM_cons]
    exact .cons (h item s) (ih _)

namespace LoadOptions

variable {options : LoadOptions}

/-- The host's vectors are no closures, and all other constants stay what they are. -/
theorem closure_of_linkConstant {constant : Constant} {heap : Heap} {index : Nat}
    (h : (options.linkConstant constant heap).1 = .closure index) : constant = .closure index := by
  cases constant with
  | vector value =>
    cases value with
    | vector v => cases h
    | _ => cases h
  | _ => exact h

/-- A linked prototype is its image with some constants, those of closures being the same, and with
the code linked to them. -/
theorem exists_linkPrototype (p : PrototypeImage) (heap : Heap) :
    ∃ (constants : Array Constant) (heap' : Heap),
      List.Forall₂ (fun a b => ∀ index, b = .closure index → a = .closure index)
        p.constants constants.toList ∧
      (options.linkPrototype p heap).1 =
        { p.toPrototypeHeader with
          code := (p.code.flatMap (options.linkUnit heap' constants)).toArray, constants } := by
  refine ⟨(p.constants.mapM options.linkConstant heap).1.toArray,
    (p.constants.mapM options.linkConstant heap).2, ?_, rfl⟩
  exact forall₂_mapM (fun _ _ _ => closure_of_linkConstant) p.constants heap

/-- A sound image of a prototype is linked to a well-formed prototype of the same size. -/
theorem wellFormed_linkPrototype {count : Nat} {p : PrototypeImage} (hp : p.Sound)
    (hchildren : ∀ child ∈ p.children, child < count)
    (hclosures : ∀ i, .closure i ∈ p.constants → i < count) (heap : Heap) :
    (options.linkPrototype p heap).1.WellFormed count ∧
      (options.linkPrototype p heap).1.code.size = p.codeSize := by
  obtain ⟨constants, heap', hconstants, heq⟩ := @exists_linkPrototype options p heap
  have hsize : (p.code.flatMap (options.linkUnit heap' constants)).toArray.size = p.codeSize := by
    rw [List.size_toArray, length_linkUnits]
    rfl
  have hall : ∀ b ∈ constants.toList, ∀ index, b = .closure index → index < count := by
    have hsource : ∀ a ∈ p.constants, ∀ index, a = .closure index → index < count :=
      fun a ha index hindex => hclosures index (hindex ▸ ha)
    refine forall_of_forall₂ (((List.forall₂_and_left _ _).2 ⟨hsource, hconstants⟩).imp ?_)
    rintro a b ⟨ha, hab⟩ index hindex
    exact ha index (hab index hindex)
  rw [heq]
  refine ⟨⟨hchildren, fun index hindex => ?_, fun k i hi => ?_, ?_, fun lines hlines => ?_⟩, hsize⟩
  · exact hall _ (Array.mem_toList_iff.2 hindex) index rfl
  · rw [List.getElem?_toArray] at hi
    obtain ⟨u, hu, rfl⟩ := exists_unit_of_slot hi
    refine wellFormed_linkInstruction (hp.units u hu) ?_
    rw [← Array.length_toList, ← hconstants.length_eq]
    exact hp.references u hu
  · exact aligned_linkUnits hp.units
  · rw [hsize]
    exact hp.lines lines hlines

end LoadOptions

/-! ## Modules -/

/-- The main prototype is there, and all prototypes are well formed. -/
structure Module.WellFormed (m : Module) : Prop where
  /-- The main prototype is there. -/
  main : m.main < m.prototypes.size
  /-- The prototypes are well formed. -/
  prototypes : ∀ p ∈ m.prototypes, p.WellFormed m.prototypes.size

namespace LoadOptions

variable {options : LoadOptions}

/-- A sound image is linked to a well-formed module, prototype by prototype of the same size. -/
theorem wellFormed_link {image : Image} (h : image.Sound) (heap : Heap) :
    (options.link image heap).1.WellFormed ∧
      (options.link image heap).1.prototypes.toList.map (·.code.size) =
        image.prototypes.map PrototypeImage.codeSize := by
  have hlinked : List.Forall₂ (fun p q => ∀ count, p.Sound → (∀ child ∈ p.children, child < count) →
      (∀ i, .closure i ∈ p.constants → i < count) →
        q.WellFormed count ∧ q.code.size = p.codeSize)
      image.prototypes (options.link image heap).1.prototypes.toList :=
    forall₂_mapM (fun p heap _ hp hchildren hclosures =>
      wellFormed_linkPrototype hp hchildren hclosures heap) image.prototypes heap
  have hlength : image.prototypes.length = (options.link image heap).1.prototypes.size :=
    hlinked.length_eq
  have hsource : ∀ p ∈ image.prototypes, p.Sound ∧
      (∀ child ∈ p.children, child < image.prototypes.length) ∧
      ∀ i, .closure i ∈ p.constants → i < image.prototypes.length :=
    fun p hp => ⟨h.prototypes p hp, h.children p hp, h.closures p hp⟩
  have hresult := ((List.forall₂_and_left _ _).2 ⟨hsource, hlinked⟩).imp
    fun p q ⟨⟨hp, hchildren, hclosures⟩, hq⟩ => hq image.prototypes.length hp hchildren hclosures
  refine ⟨⟨hlength ▸ h.main, fun q hq => ?_⟩, ?_⟩
  · rw [← hlength]
    exact forall_of_forall₂ (hresult.imp fun _ _ hq => hq.1) q (Array.mem_toList_iff.2 hq)
  · symm
    rw [← List.forall₂_eq_eq_eq, List.forall₂_map_left_iff, List.forall₂_map_right_iff]
    exact hresult.imp fun _ _ hq => hq.2.symm

/-- Whatever bytes are loaded, and whatever the host makes of words and vectors, either they are
rejected, as corrupt or for an operation that there is not, or the module is well formed and its
code is as long as the bytes declare. -/
theorem load_wellFormed (options : LoadOptions) (bytes : Bytes) (heap : Heap) :
    (∃ corruption, options.load bytes heap = .error (.corrupt corruption)) ∨
      (∃ opcode slot index,
        options.load bytes heap = .error (.unsupportedOpcode opcode slot index)) ∨
      ∃ m heap', options.load bytes heap = .ok (m, heap') ∧ m.WellFormed ∧
        Image.readDeclarations (options.decodeWord.getD id) bytes =
          .ok (m.prototypes.toList.map (·.code.size)) := by
  rw [load, Image.read]
  cases hrun : Image.reader (options.decodeWord.getD id) (.ofBytes bytes) with
  | error e c' =>
    cases e with
    | corrupt corruption => exact .inl ⟨corruption, rfl⟩
    | unsupportedOpcode opcode slot index => exact .inr (.inl ⟨opcode, slot, index, rfl⟩)
  | ok image c' =>
    obtain ⟨hsound, c₁, hdeclared⟩ := Image.ensures_reader _ image c' hrun
    obtain ⟨hwell, hsizes⟩ := @wellFormed_link options image hsound heap
    refine .inr (.inr ⟨(options.link image heap).1, (options.link image heap).2, rfl, hwell, ?_⟩)
    rw [Image.readDeclarations, hdeclared, hsizes]

/-- An auxiliary word counts as a slot: the two instructions of the only prototype, the first of
them with an auxiliary word, are declared as three slots. -/
example :
    (Image.readDeclarations id
      [3, 0, 1, 1, 0, 0, 0, 3, 66, 0, 0, 0, 0, 0, 0, 0, 22, 0, 2, 0, 1, 0, 0, 0, 0, 0, 0,
        0]).toOption = some [3] := by
  decide +kernel

end LoadOptions

end ScriptMachine
