import ScriptMachine.Proofs.Bytecode.Drafts
import ScriptMachine.Proofs.Bytecode.Loading

/-!
# Loading undoes assembling

A module that calls of the assembler have made, and in which everything that is referred to is
there, is loaded as what the calls have asked for: every count, string, constant, child, line and
operand is the one that was given.
-/

namespace ScriptMachine

/-! ## What must hold of a source -/

/-- What a prototype refers to is there, in a module with some count of prototypes, and its parts
can be counted in 32 bits. -/
structure SourcePrototype.Valid (count : Nat) (p : SourcePrototype) : Prop where
  /-- What was emitted makes instructions, and the constants that these refer to are there. -/
  code : ∃ units, CodeUnit.parse? (p.code.map fun entry => entry.1.word) = some units ∧
    ∀ u ∈ units, ∀ r ∈ u.references, 0 ≤ r ∧ r < (p.constants.length : Int)
  /-- Wide operands fit into their field. -/
  fits : ∀ entry ∈ p.code, entry.1.Fits
  /-- The children are there. -/
  children : ∀ child ∈ p.children, child.toNat < count
  /-- The prototypes of closure constants are there. -/
  closures : ∀ i, .closure i ∈ p.constants → i.toNat < count
  /-- The keys of a table shape can be counted. -/
  tables : ∀ keys, .table keys ∈ p.constants → keys.length < 2 ^ 32
  /-- The words can be counted. -/
  code_length : p.code.length < 2 ^ 32
  /-- The constants can be counted. -/
  constants_length : p.constants.length < 2 ^ 32
  /-- The children can be counted. -/
  children_length : p.children.length < 2 ^ 32

/-- The prototypes of a module are valid, the main one is there, and all can be counted. -/
structure SourceModule.Valid (m : SourceModule) : Prop where
  /-- The prototypes are valid. -/
  prototypes : ∀ p ∈ m.prototypes, p.Valid m.prototypes.length
  /-- The main prototype is there. -/
  main : m.main.toNat < m.prototypes.length
  /-- The prototypes can be counted. -/
  prototypes_length : m.prototypes.length < 2 ^ 32

/-- The strings of a module and their bytes can be counted in 32 bits. -/
structure StringsFit (strings : Array Bytes) : Prop where
  /-- The strings can be counted. -/
  size : strings.size < 2 ^ 32
  /-- The bytes of a string can be counted. -/
  length : ∀ s ∈ strings, s.length < 2 ^ 32

/-! ## What is loaded for a source -/

/-- The constant that is loaded. -/
def SourceConstant.loaded (options : LoadOptions) : SourceConstant → Constant
  | nil => .nil
  | boolean b => .boolean b
  | .number n => .number n
  | .string s => .string (some s)
  | importPath id => .importPath id
  | table keys => .table (keys.map UInt32.toNat)
  | closure index => .closure index.toNat
  | vector v => .vector (.vector (if options.vectorSize = 4 then v else { v with w := 0 }))

/-- An instruction is loaded for what was emitted into its slot and the auxiliary word after it. -/
structure Instruction.LoadedFor (constants : Array Constant) (emission : Emission)
    (auxWord : UInt32) (i : Instruction) : Prop where
  /-- The operation has the number that was emitted. -/
  opcode : ∀ n, emission.opcode? = some n → Opcode.ofNat? n.toNat = some i.opcode
  /-- There is no breakpoint. -/
  underlying : i.underlying = i.opcode
  /-- The word is the one that was written. -/
  word : i.word = emission.word
  /-- The operands are those that were emitted. -/
  operands : ∀ o, emission.operands? i.opcode.info.operands = some o → i.operands = o
  /-- The auxiliary word is the one that was emitted. -/
  aux : i.aux = auxWord
  /-- The constant is the one that the instruction refers to. -/
  constant : i.opcode.info.constant ≠ .auxImport →
    ∀ r ∈ (CodeUnit.mk i.opcode i.word (some auxWord)).references,
      constants[r.toNat]? = some i.constant
  /-- The steps of a path are the constants whose positions were packed into it. -/
  path : i.opcode.info.constant = .auxImport → ∀ indices : List UInt32, indices ≠ [] →
    indices.length ≤ 3 → (∀ k ∈ indices, k.toNat < 2 ^ 10) →
    auxWord = PrototypeDraft.importId indices →
      i.path.count = indices.length ∧ ∀ (n : Nat) k, indices[n]? = some k →
        ∃ c, constants[k.toNat]? = some c ∧
          [i.path.first, i.path.second, i.path.third][n]? = some c.value

/-- The slots of a code are loaded for what was emitted into them, every instruction together with
its auxiliary word if its operation takes one. -/
inductive CodeLoadedFor (constants : Array Constant) : List Emission → List Slot → Prop where
  /-- No code. -/
  | nil : CodeLoadedFor constants [] []
  /-- An instruction without an auxiliary word. -/
  | plain {emission : Emission} {i : Instruction} {emissions : List Emission} {slots : List Slot}
      (head : i.LoadedFor constants emission 0) (size : i.opcode.info.hasAux = false)
      (tail : CodeLoadedFor constants emissions slots) :
      CodeLoadedFor constants (emission :: emissions) (.instruction i :: slots)
  /-- An instruction with its auxiliary word. -/
  | withAux {emission aux : Emission} {i : Instruction} {emissions : List Emission}
      {slots : List Slot} (head : i.LoadedFor constants emission aux.word)
      (size : i.opcode.info.hasAux = true) (tail : CodeLoadedFor constants emissions slots) :
      CodeLoadedFor constants (emission :: aux :: emissions)
        (.instruction i :: .aux aux.word :: slots)

/-- A prototype is loaded for what was asked for, at its position in a module. -/
structure Prototype.LoadedFor (options : LoadOptions) (position first : Nat) (s : SourcePrototype)
    (p : Prototype) : Prop where
  /-- The position. -/
  index : p.index = position
  /-- The count of registers. -/
  maxStackSize : p.maxStackSize = s.maxStackSize
  /-- The count of parameters. -/
  numParams : p.numParams = s.numParams
  /-- The count of upvalues. -/
  numUpvalues : p.numUpvalues = s.numUpvalues
  /-- Whether there may be more arguments than parameters. -/
  isVararg : p.isVararg = s.isVararg
  /-- The assembler gives no flags. -/
  flags : p.flags = 0
  /-- The children. -/
  children : p.children = s.children.map UInt32.toNat
  /-- The line on which it begins. -/
  lineDefined : p.lineDefined = s.lineDefined.toNat
  /-- The name, which the main prototype and one without a name are given. -/
  name : p.name = if position = first then Image.mainName else s.name.getD Image.unnamed
  /-- The lines of the words. -/
  lines : p.lines =
    if s.hasLines then some (s.code.map fun entry => entry.2.toInt).toArray else none
  /-- The constants. -/
  constants : p.constants = (s.constants.map (SourceConstant.loaded options)).toArray
  /-- The code. -/
  code : CodeLoadedFor p.constants (s.code.map Prod.fst) p.code.toList

/-- A module is loaded for what was asked for. -/
structure Module.LoadedFor (options : LoadOptions) (format types : UInt8)
    (table : Array Bytes) (s : SourceModule) (m : Module) : Prop where
  /-- The version of the format. -/
  version : m.version = format
  /-- The version of the type annotations, which earlier versions of the format lack. -/
  typesVersion : m.typesVersion = if 4 ≤ format then types else 0
  /-- The main prototype. -/
  main : m.main = s.main.toNat
  /-- The strings, in order. -/
  strings : m.strings = table.toList
  /-- The count of prototypes. -/
  prototypes_size : m.prototypes.size = s.prototypes.length
  /-- The prototypes, in order. -/
  prototypes : ∀ (i : Nat) p, s.prototypes[i]? = some p →
    ∃ q, m.prototypes[i]? = some q ∧ q.LoadedFor options i s.main.toNat p

/-! ## Linking code -/

section Code

variable (options : LoadOptions) (heap : Heap) {constants : Array Constant}

theorem linkInstruction_base (u : CodeUnit) :
    (options.linkInstruction heap constants u).opcode = u.opcode ∧
      (options.linkInstruction heap constants u).underlying = u.opcode ∧
      (options.linkInstruction heap constants u).word = u.word ∧
      (options.linkInstruction heap constants u).operands = u.operands ∧
      (options.linkInstruction heap constants u).aux = u.auxWord := by
  rw [LoadOptions.linkInstruction]
  split <;> exact ⟨rfl, rfl, rfl, rfl, rfl⟩

/-- A constant that is referred to is the one that an instruction gets. -/
theorem linkInstruction_constant {u : CodeUnit} (hformat : u.opcode.info.constant ≠ .auxImport)
    (hrange : ∀ r ∈ u.references, 0 ≤ r ∧ r < (constants.size : Int)) {r : Int}
    (hr : r ∈ u.references) :
    constants[r.toNat]? = some (options.linkInstruction heap constants u).constant := by
  have hlt := hrange r hr
  have hget : constants[r.toNat]? = some (constants.getD r.toNat .nil) := by
    rw [Array.getD_eq_getD_getElem?, Array.getElem?_eq_getElem (by omega), Option.getD_some]
  rw [hget]
  unfold CodeUnit.references at hr
  unfold LoadOptions.linkInstruction
  cases hconstant : u.opcode.info.constant with
  | auxImport => exact absurd hconstant hformat
  | none | auxFlag | auxCount =>
    rw [hconstant] at hr
    cases hr
  | aux | b | c | d | auxIndex =>
    rw [hconstant] at hr
    obtain rfl := List.mem_singleton.1 hr
    rfl

theorem linkPath_steps (constants : Array Constant) (aux : UInt32) :
    (options.linkPath heap constants aux).count = AuxWord.pathLength aux ∧
      (options.linkPath heap constants aux).first =
        (constants.getD (AuxWord.pathIndices aux).1 .nil).value ∧
      (2 ≤ AuxWord.pathLength aux → (options.linkPath heap constants aux).second =
        (constants.getD (AuxWord.pathIndices aux).2.1 .nil).value) ∧
      (3 ≤ AuxWord.pathLength aux → (options.linkPath heap constants aux).third =
        (constants.getD (AuxWord.pathIndices aux).2.2 .nil).value) := by
  unfold LoadOptions.linkPath
  dsimp only
  split
  · split
    · refine ⟨rfl, rfl, fun h => ?_, fun h => ?_⟩
      · simp [h]
      · simp [h]
    · refine ⟨rfl, rfl, fun h => ?_, fun h => ?_⟩
      · simp [h]
      · simp [h]
  · refine ⟨rfl, rfl, fun h => ?_, fun h => ?_⟩
    · simp [h]
    · simp [h]

theorem references_importId {u : CodeUnit} (hformat : u.opcode.info.constant = .auxImport)
    {indices : List UInt32} (hne : indices ≠ []) (hlength : indices.length ≤ 3)
    (hindices : ∀ k ∈ indices, k.toNat < 2 ^ 10)
    (haux : u.auxWord = PrototypeDraft.importId indices) :
    u.references = indices.map fun k => (k.toNat : Int) := by
  obtain ⟨hcount, hfields⟩ := AuxWord.path_importId hlength hindices
  rw [CodeUnit.references, hformat]
  simp only [haux, hcount, hfields]
  clear hcount hfields haux hindices
  rcases indices with _ | ⟨a, _ | ⟨b, _ | ⟨c, _ | ⟨d, rest⟩⟩⟩⟩
  · exact absurd rfl hne
  · rfl
  · rfl
  · rfl
  · simp only [List.length_cons] at hlength
    omega

/-- The steps of a packed path are the constants whose positions were packed. -/
theorem linkInstruction_path {u : CodeUnit} (hformat : u.opcode.info.constant = .auxImport)
    (hrange : ∀ r ∈ u.references, 0 ≤ r ∧ r < (constants.size : Int)) {indices : List UInt32}
    (hne : indices ≠ []) (hlength : indices.length ≤ 3) (hindices : ∀ k ∈ indices, k.toNat < 2 ^ 10)
    (haux : u.auxWord = PrototypeDraft.importId indices) :
    (options.linkInstruction heap constants u).path.count = indices.length ∧
      ∀ (n : Nat) k, indices[n]? = some k → ∃ c, constants[k.toNat]? = some c ∧
        [(options.linkInstruction heap constants u).path.first,
          (options.linkInstruction heap constants u).path.second,
          (options.linkInstruction heap constants u).path.third][n]? = some c.value := by
  obtain ⟨hcount, hfields⟩ := AuxWord.path_importId hlength hindices
  obtain ⟨hlinked, hfirst, hsecond, hthird⟩ :=
    linkPath_steps options heap constants u.auxWord
  have hpath : (options.linkInstruction heap constants u).path =
      options.linkPath heap constants u.auxWord := by
    rw [LoadOptions.linkInstruction, hformat]
  rw [haux, hfields] at hfirst
  rw [haux, hcount, hfields] at hsecond hthird
  rw [hpath, hlinked, haux, hcount]
  refine ⟨rfl, fun n k hk => ?_⟩
  have hlt : k.toNat < constants.size := by
    have hmem := List.mem_map_of_mem (f := fun k : UInt32 => (k.toNat : Int))
      (List.mem_of_getElem? hk)
    rw [← references_importId hformat hne hlength hindices haux] at hmem
    have hr := hrange _ hmem
    omega
  have hn := (List.getElem?_eq_some_iff.1 hk).1
  have hvalue : constants.getD (indices.getD n 0).toNat .nil = constants[k.toNat] := by
    rw [List.getD_eq_getElem?_getD, hk, Option.getD_some, Array.getD_eq_getD_getElem?,
      Array.getElem?_eq_getElem hlt, Option.getD_some]
  refine ⟨constants[k.toNat], Array.getElem?_eq_getElem hlt, ?_⟩
  rw [← hvalue]
  match n, hn with
  | 0, _ => exact congrArg some hfirst
  | 1, hn => exact congrArg some (hsecond (by omega))
  | 2, hn => exact congrArg some (hthird (by omega))
  | n + 3, hn => omega

theorem linkInstruction_loadedFor {u : CodeUnit} {emission : Emission}
    (hword : u.word = emission.word)
    (hopcode : Opcode.ofNat? (Word.opcodeNumber u.word) = some u.opcode) (hfits : emission.Fits)
    (hrange : ∀ r ∈ u.references, 0 ≤ r ∧ r < (constants.size : Int)) :
    (options.linkInstruction heap constants u).LoadedFor constants emission u.auxWord := by
  obtain ⟨hop, hunderlying, hw, hoperands, haux⟩ :=
    linkInstruction_base options heap u
  refine ⟨?_, ?_, ?_, ?_, haux, ?_, ?_⟩
  · intro n hn
    rw [hop, ← hopcode, hword, Emission.opcodeNumber_word hn]
  · rw [hunderlying, hop]
  · rw [hw, hword]
  · intro o ho
    rw [hop] at ho
    rw [hoperands, CodeUnit.operands, hword]
    exact Emission.operands_word hfits ho
  · intro hformat r hr
    rw [hop] at hformat hr
    rw [hw] at hr
    exact linkInstruction_constant options heap hformat hrange hr
  · intro hformat indices hne hlength hindices hpacked
    rw [hop] at hformat
    exact linkInstruction_path options heap hformat hrange hne hlength hindices hpacked

theorem linkUnits_loadedFor (words : List UInt32) :
    ∀ (emissions : List Emission) units, emissions.map Emission.word = words →
      CodeUnit.parse? words = some units → (∀ emission ∈ emissions, emission.Fits) →
      (∀ u ∈ units, ∀ r ∈ u.references, 0 ≤ r ∧ r < (constants.size : Int)) →
      CodeLoadedFor constants emissions (units.flatMap (options.linkUnit heap constants)) := by
  fun_induction CodeUnit.parse? words with
  | case1 =>
    intro emissions units hwords hunits _ _
    obtain rfl := List.map_eq_nil_iff.1 hwords
    cases hunits
    exact .nil
  | case2 word words hop =>
    rintro emissions units _ ⟨⟩
  | case3 word opcode hop haux =>
    rintro emissions units _ ⟨⟩
  | case4 word opcode hop haux aux words ih =>
    intro emissions units hwords hunits hfits hrange
    obtain ⟨emission, more, rfl, hword, hmore⟩ := List.map_eq_cons_iff.1 hwords
    obtain ⟨auxEmission, rest, rfl, rfl, hrest⟩ := List.map_eq_cons_iff.1 hmore
    obtain ⟨others, hothers, rfl⟩ := Option.map_eq_some_iff.1 hunits
    rw [List.forall_mem_cons, List.forall_mem_cons] at hfits
    rw [List.forall_mem_cons] at hrange
    have hhead := linkInstruction_loadedFor options heap
      (u := ⟨opcode, word, some auxEmission.word⟩) hword.symm hop hfits.1 hrange.1
    have hsize : (options.linkInstruction heap constants
        ⟨opcode, word, some auxEmission.word⟩).opcode.info.hasAux = true := by
      rw [(linkInstruction_base options heap _).1]
      exact haux
    exact .withAux hhead hsize (ih rest others hrest hothers hfits.2.2 hrange.2)
  | case5 word words opcode hop haux ih =>
    intro emissions units hwords hunits hfits hrange
    obtain ⟨emission, rest, rfl, hword, hrest⟩ := List.map_eq_cons_iff.1 hwords
    obtain ⟨others, hothers, rfl⟩ := Option.map_eq_some_iff.1 hunits
    rw [List.forall_mem_cons] at hfits hrange
    have hhead := linkInstruction_loadedFor options heap
      (u := ⟨opcode, word, none⟩) hword.symm hop hfits.1 hrange.1
    have hsize : (options.linkInstruction heap constants
        ⟨opcode, word, none⟩).opcode.info.hasAux = false := by
      rw [(linkInstruction_base options heap _).1]
      exact Bool.eq_false_iff.2 haux
    exact .plain hhead hsize (ih rest others hrest hothers hfits.2 hrange.2)

end Code

/-! ## Numbers of strings -/

section Numbers

variable {strings : Array Bytes} {number : UInt32} {s : Bytes}

/-- A number that stands for a string leads to it. -/
theorem Numbers.getElem? (h : Numbers strings number s) (hsize : strings.size < 2 ^ 32) :
    number ≠ 0 ∧ number.toNat ≤ strings.size ∧ strings.toList[number.toNat - 1]? = some s := by
  obtain ⟨i, hi, rfl⟩ := h
  have hlt := (Array.getElem?_eq_some_iff.1 hi).1
  have hnumber : (i + 1).toUInt32.toNat = i + 1 := by
    rw [Nat.toUInt32, UInt32.toNat_ofNat']
    omega
  refine ⟨fun hzero => ?_, by omega, ?_⟩
  · rw [hzero, UInt32.toNat_zero] at hnumber
    omega
  · rw [hnumber, Nat.add_sub_cancel, Array.getElem?_toList, hi]

/-- A constant that represents what was asked for is read and linked as that. -/
theorem SourceConstant.Represents.loaded {c : SourceConstant} {d : DraftConstant}
    (h : c.Represents strings d) (hsize : strings.size < 2 ^ 32) (options : LoadOptions) :
    options.plainConstant (d.image strings.toList) = c.loaded options := by
  obtain ⟨number, rfl, hs⟩ := h
  cases c with
  | string s =>
    obtain ⟨hne, _, hget⟩ := (hs s rfl).getElem? hsize
    rw [SourceConstant.draft, DraftConstant.image, if_neg hne, hget]
    rfl
  | _ => rfl

theorem SourceConstant.Represents.readable {c : SourceConstant} {d : DraftConstant}
    (h : c.Represents strings d) (hsize : strings.size < 2 ^ 32)
    (htable : ∀ keys, c = .table keys → keys.length < 2 ^ 32) : d.Readable strings.toList := by
  obtain ⟨number, rfl, hs⟩ := h
  cases c with
  | string s =>
    have hnumber := ((hs s rfl).getElem? hsize).2.1
    rwa [← Array.length_toList] at hnumber
  | table keys => exact htable keys rfl
  | _ => trivial

end Numbers

/-! ## Prototypes -/

namespace SourcePrototype.Represents

variable {strings : Array Bytes} {count : Nat} {s : SourcePrototype} {d : PrototypeDraft}

theorem words_fst (h : s.Represents strings d) :
    d.words.toList.map Prod.fst = s.code.map fun entry => entry.1.word := by
  rw [h.words, List.map_map]
  rfl

theorem units_eq (h : s.Represents strings d) {units : List CodeUnit}
    (hunits : CodeUnit.parse? (s.code.map fun entry => entry.1.word) = some units) :
    d.units = units := by
  rw [PrototypeDraft.units, h.words_fst, hunits, Option.getD_some]

/-- A valid prototype is represented by one that can be read. -/
theorem readable (h : s.Represents strings d) (hs : s.Valid count) (hsize : strings.size < 2 ^ 32) :
    d.Readable strings.toList := by
  obtain ⟨units, hunits, hreferences⟩ := hs.code
  have hconstants : d.constants.size = s.constants.length := by
    rw [← Array.length_toList, h.constants.length_eq]
  have hname := h.name
  refine ⟨?_, ?_, ?_, ?_, ?_, ?_, ?_⟩
  · rw [h.words_fst, h.units_eq hunits, hunits]
  · rw [h.units_eq hunits, hconstants]
    exact hreferences
  · intro c hc
    obtain ⟨i, hi, rfl⟩ := List.getElem_of_mem (Array.mem_toList_iff.2 hc)
    have hsource := h.constants.get (by rw [h.constants.length_eq]; exact hi) hi
    refine hsource.readable hsize fun keys hkeys => hs.tables keys ?_
    rw [← hkeys]
    exact List.get_mem _ _
  · split at hname
    · rw [hname, UInt32.toNat_zero]
      exact Nat.zero_le _
    · rw [Array.length_toList]
      exact (hname.getElem? hsize).2.1
  · have hlength := congrArg List.length h.words
    rw [Array.length_toList, List.length_map] at hlength
    rw [hlength]
    exact hs.code_length
  · rw [hconstants]
    exact hs.constants_length
  · rw [← Array.length_toList, h.children]
    exact hs.children_length

theorem loaded_constants (h : s.Represents strings d) (hsize : strings.size < 2 ^ 32)
    (options : LoadOptions) (index : Nat) :
    options.plainConstants (d.image strings.toList index) =
      (s.constants.map (SourceConstant.loaded options)).toArray := by
  have heq : List.Forall₂ (fun c e => c.loaded options =
      options.plainConstant (e.image strings.toList)) s.constants d.constants.toList :=
    h.constants.imp fun _ _ hc => (hc.loaded hsize options).symm
  have hlists : s.constants.map (SourceConstant.loaded options) =
      d.constants.toList.map fun e => options.plainConstant (e.image strings.toList) := by
    rw [← List.forall₂_eq_eq_eq, List.forall₂_map_left_iff, List.forall₂_map_right_iff]
    exact heq
  rw [hlists, LoadOptions.plainConstants, PrototypeDraft.image, List.map_map]
  rfl

theorem image_name (h : s.Represents strings d) (hsize : strings.size < 2 ^ 32) (index : Nat) :
    (d.image strings.toList index).name = s.name.getD Image.unnamed := by
  have hname := h.name
  rw [PrototypeDraft.image]
  split at hname
  · rename_i hnone
    rw [if_pos hname, hnone, Option.getD_none]
  · rename_i t hsome
    obtain ⟨hne, _, hget⟩ := hname.getElem? hsize
    rw [if_neg hne, hsome, List.getD_eq_getElem?_getD, hget, Option.getD_some, Option.getD_some]

theorem image_lines (h : s.Represents strings d) (index : Nat) :
    (d.image strings.toList index).lines =
      if s.hasLines then some (s.code.map fun entry => entry.2.toInt).toArray else none := by
  have hlines : d.words.map (fun entry => entry.2.toInt) =
      (s.code.map fun entry => entry.2.toInt).toArray := by
    rw [← Array.toList_inj, Array.toList_map, h.words, List.map_map]
    rfl
  rw [PrototypeDraft.image, h.hasLines, hlines]

/-- A valid prototype is loaded as what was asked for, with its own name or that of the main one. -/
theorem loadedFor (h : s.Represents strings d) (hs : s.Valid count) (hsize : strings.size < 2 ^ 32)
    (options : LoadOptions) (heap : Heap) (index main : Nat) :
    (options.plainPrototype heap
      (if main = index then { d.image strings.toList index with name := Image.mainName }
      else d.image strings.toList index)).LoadedFor options index main s := by
  obtain ⟨units, hunits, hreferences⟩ := hs.code
  have hconstants := h.loaded_constants hsize options index
  have hname := h.name
  have hcode : CodeLoadedFor (s.constants.map (SourceConstant.loaded options)).toArray
      (s.code.map Prod.fst) (units.flatMap (options.linkUnit heap
        (s.constants.map (SourceConstant.loaded options)).toArray)) := by
    refine linkUnits_loadedFor options heap _ _ units ?_ hunits ?_ ?_
    · rw [List.map_map]
      rfl
    · intro emission hemission
      obtain ⟨entry, hentry, rfl⟩ := List.mem_map.1 hemission
      exact hs.fits entry hentry
    · simpa using hreferences
  have hprototype : (if main = index then
        { d.image strings.toList index with name := Image.mainName }
      else d.image strings.toList index) =
      { d.image strings.toList index with
        name := if index = main then Image.mainName else s.name.getD Image.unnamed } := by
    by_cases hmain : main = index
    · rw [if_pos hmain, if_pos hmain.symm]
    · rw [if_neg hmain, if_neg (Ne.symm hmain), ← h.image_name hsize index]
  rw [hprototype]
  refine ⟨rfl, h.maxStackSize, h.numParams, h.numUpvalues, h.isVararg, rfl, ?_, ?_, rfl, ?_,
    hconstants, ?_⟩
  · exact congrArg (List.map UInt32.toNat) h.children
  · exact congrArg UInt32.toNat h.lineDefined
  · exact h.image_lines index
  · rw [← hconstants, ← h.units_eq hunits] at hcode
    exact hcode

end SourcePrototype.Represents

/-! ## Modules -/

namespace SourceModule.Represents

variable {m : SourceModule} {d : ModuleDraft}

/-- Every prototype of the draft represents one of the source. -/
theorem prototype (h : m.Represents d) {i : Nat} {p : PrototypeDraft}
    (hp : d.prototypes[i]? = some p) :
    ∃ s, m.prototypes[i]? = some s ∧ s.Represents d.strings p := by
  rw [← Array.getElem?_toList] at hp
  obtain ⟨hi, rfl⟩ := List.getElem?_eq_some_iff.1 hp
  have hlt : i < m.prototypes.length := by
    rw [h.prototypes.length_eq]
    exact hi
  exact ⟨m.prototypes[i], List.getElem?_eq_getElem hlt, h.prototypes.get hlt hi⟩

theorem size (h : m.Represents d) : d.prototypes.size = m.prototypes.length := by
  rw [← Array.length_toList, h.prototypes.length_eq]

/-- A valid module is represented by one that can be read. -/
theorem readable (h : m.Represents d) (hm : m.Valid) (hd : StringsFit d.strings) : d.Readable := by
  have hsource : ∀ p ∈ d.prototypes, ∃ s, s ∈ m.prototypes ∧ s.Represents d.strings p := by
    intro p hp
    obtain ⟨i, hi⟩ := Array.getElem?_of_mem hp
    obtain ⟨s, hs, hrepresents⟩ := h.prototype hi
    exact ⟨s, List.mem_of_getElem? hs, hrepresents⟩
  refine ⟨?_, ?_, ?_, ?_, ?_, hd.size, hd.length⟩
  · intro p hp
    obtain ⟨s, hs, hrepresents⟩ := hsource p hp
    exact hrepresents.readable (hm.prototypes s hs) hd.size
  · intro p hp child hchild
    obtain ⟨s, hs, hrepresents⟩ := hsource p hp
    rw [h.size]
    refine (hm.prototypes s hs).children child ?_
    rw [← hrepresents.children]
    exact Array.mem_toList_iff.2 hchild
  · intro p hp i hi
    obtain ⟨s, hs, hrepresents⟩ := hsource p hp
    rw [h.size]
    refine (hm.prototypes s hs).closures i ?_
    obtain ⟨k, hk, hget⟩ := List.getElem_of_mem (Array.mem_toList_iff.2 hi)
    have hlt : k < s.constants.length := by
      rw [hrepresents.constants.length_eq]
      exact hk
    obtain ⟨number, hdraft, _⟩ := hrepresents.constants.get hlt hk
    rw [List.get_eq_getElem, hget] at hdraft
    have hclosure : s.constants[k] = .closure i := by
      rw [List.get_eq_getElem] at hdraft
      cases hc : s.constants[k] <;> rw [hc] at hdraft <;> cases hdraft
      rfl
    rw [← hclosure]
    exact List.getElem_mem hlt
  · rw [h.main, h.size]
    exact hm.main
  · rw [h.size]
    exact hm.prototypes_length

end SourceModule.Represents

/-- A module that calls of the assembler have made is loaded as what they have asked for, when
everything that it refers to is there and all its parts can be counted in 32 bits. -/
theorem ModuleDraft.load_of {calls : List ModuleCall} {version typesVersion : UInt8}
    {options : LoadOptions} (hvalid : (SourceModule.of calls).Valid)
    (hstrings : StringsFit (ModuleDraft.of calls).strings) (hmin : 3 ≤ version) (hmax : version ≤ 6)
    (hdecode : options.decodeWord = none) (hvector : options.makeVector = none) (heap : Heap) :
    ∃ m, options.load ((ModuleDraft.of calls).serialize version typesVersion) heap = .ok (m, heap) ∧
      m.LoadedFor options version typesVersion (ModuleDraft.of calls).strings
        (SourceModule.of calls) := by
  have h := SourceModule.represents_of calls
  have hload := LoadOptions.load_serialize (h.readable hvalid hstrings) hmin hmax typesVersion hdecode
    hvector heap
  refine ⟨_, hload, rfl, rfl, congrArg UInt32.toNat h.main, rfl, ?_, ?_⟩
  · rw [List.size_toArray, List.length_map, Image.nameMain, List.length_modify,
      ModuleDraft.images, List.length_mapIdx, Array.length_toList, h.size]
  · intro i s hs
    have hlt : i < (ModuleDraft.of calls).prototypes.size := by
      rw [h.size]
      exact (List.getElem?_eq_some_iff.1 hs).1
    have hp := Array.getElem?_eq_getElem hlt
    obtain ⟨s', hs', hrepresents⟩ := h.prototype hp
    obtain rfl : s = s' := Option.some.inj (hs.symm.trans hs')
    have hloaded := hrepresents.loadedFor (hvalid.prototypes s (List.mem_of_getElem? hs))
      hstrings.size options heap i (SourceModule.of calls).main.toNat
    refine ⟨_, ?_, hloaded⟩
    rw [List.getElem?_toArray, List.getElem?_map, Image.nameMain, List.getElem?_modify,
      ModuleDraft.images, List.getElem?_mapIdx, Array.getElem?_toList, hp, h.main]
    split <;> rfl

/-- The calls that make a module whose only function fetches a global, jumps over nothing and
returns. -/
def fetchingCalls : List ModuleCall :=
  [.prototype, .change 0 (.maxStack 1), .change 0 (.line 3),
    .change 0 (.constant (.string ([103]))),
    .change 0 (.emitWithAux (.ad 12 0 0) (PrototypeDraft.importId [0])),
    .change 0 (.emit (.ad 23 0 0)), .change 0 (.patchD 2 3), .change 0 (.emit (.abc 22 0 2 0))]

theorem load_fetchingCalls :
    ∃ m, ({} : LoadOptions).load ((ModuleDraft.of fetchingCalls).serialize 6 3) {} =
        Except.ok (m, {}) ∧
      m.LoadedFor {} 6 3 (ModuleDraft.of fetchingCalls).strings
        (SourceModule.of fetchingCalls) := by
  have hstrings : (ModuleDraft.of fetchingCalls).strings = #[[103]] := by cbv
  let fetching : SourcePrototype :=
    { maxStackSize := 1, line := 3, hasLines := true,
      code := [(.ad 12 0 0, 3), (.aux (PrototypeDraft.importId [0]), 3), (.ad 23 0 0, 3),
        (.abc 22 0 2 0, 3)],
      constants := [.string ([103])] }
  have hsource : SourceModule.of fetchingCalls = { prototypes := [fetching] } := rfl
  have hfetching : fetching.Valid 1 := by
    refine ⟨⟨_, rfl, ?_⟩, ?_, ?_, ?_, ?_, ?_, ?_, ?_⟩
    · decide
    · simp [fetching, Emission.Fits]
    · simp [fetching]
    · simp [fetching]
    · simp [fetching]
    · decide
    · decide
    · decide
  refine ModuleDraft.load_of ?_ ?_ (by decide) (by decide) rfl rfl {}
  · rw [hsource]
    exact ⟨by simpa using hfetching, by decide, by decide⟩
  · rw [hstrings]
    exact ⟨by decide, by simp⟩

end ScriptMachine
