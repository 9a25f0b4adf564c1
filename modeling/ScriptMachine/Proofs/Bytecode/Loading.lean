import ScriptMachine.Bytecode.Link
import ScriptMachine.Proofs.Bytecode.Images

/-!
# Loading what was assembled

A draft in which nothing is missing is read to the last byte, and linking finds every prototype and
every constant.
-/

namespace ScriptMachine

open Reader

/-! ## Reading to the end -/

namespace Reader

/-- The reader takes exactly the given bytes when nothing follows them and gives the result. -/
def Finishes {α : Type} (r : Reader α) (bytes : Bytes) (a : α) : Prop :=
  ∀ position, r ⟨position, bytes⟩ = .ok a ⟨position + bytes.length, []⟩

theorem Reads.finishes {α β : Type} {r : Reader α} {f : α → Reader β} {bytes bytes' : Bytes} {a : α}
    {b : β} (h : Reads r bytes a) (h' : Finishes (f a) bytes' b) :
    Finishes (r >>= f) (bytes ++ bytes') b := by
  intro position
  change EStateM.bind r f _ = _
  rw [EStateM.bind, h position bytes']
  dsimp only
  rw [h', List.length_append, Nat.add_assoc]

end Reader

/-! ## Modules -/

namespace ModuleDraft

/-- The prototypes can be read, the main one and all that one refers to is there, and all counts
can be written. -/
structure Readable (m : ModuleDraft) : Prop where
  /-- The prototypes can be read. -/
  prototypes : ∀ p ∈ m.prototypes, p.Readable m.strings.toList
  /-- The children are there. -/
  children : ∀ p ∈ m.prototypes, ∀ child ∈ p.children, child.toNat < m.prototypes.size
  /-- The prototypes of closure constants are there. -/
  closures : ∀ p ∈ m.prototypes, ∀ i, .closure i ∈ p.constants → i.toNat < m.prototypes.size
  /-- The main prototype is there. -/
  main : m.main.toNat < m.prototypes.size
  /-- The count of prototypes can be written. -/
  prototypes_size : m.prototypes.size < 2 ^ 32
  /-- The count of strings can be written. -/
  strings_size : m.strings.size < 2 ^ 32
  /-- The lengths of the strings can be written. -/
  strings_length : ∀ s ∈ m.strings, s.length < 2 ^ 32

/-- The images of the prototypes. -/
def images (m : ModuleDraft) : List PrototypeImage :=
  m.prototypes.toList.mapIdx fun index p => p.image m.strings.toList index

/-- The image of a module in a version of the format and of its type annotations. -/
def image (m : ModuleDraft) (version typesVersion : UInt8) : Image where
  version := version
  typesVersion := if 4 ≤ version then typesVersion else 0
  strings := m.strings.toList
  prototypes := Image.nameMain m.main.toNat m.images
  main := m.main.toNat

end ModuleDraft

namespace Image

variable {m : ModuleDraft} {version typesVersion : UInt8}

theorem missingPrototype?_images (hm : m.Readable) :
    m.images.findSome? (missingPrototype? m.prototypes.size) = none := by
  rw [List.findSome?_eq_none_iff]
  intro image himage
  obtain ⟨i, hi, rfl⟩ := List.mem_mapIdx.1 himage
  have hp : m.prototypes.toList[i] ∈ m.prototypes := by simp
  have hchildren : (m.prototypes.toList[i].children.toList.map UInt32.toNat).find?
      (m.prototypes.size ≤ ·) = none := by
    rw [List.find?_eq_none]
    intro n hn hle
    obtain ⟨child, hchild, rfl⟩ := List.mem_map.1 hn
    have hlt := hm.children _ hp child (Array.mem_toList_iff.1 hchild)
    simp only [decide_eq_true_eq] at hle
    omega
  simp only [missingPrototype?, PrototypeDraft.image, hchildren, List.findSome?_eq_none_iff]
  intro constant hconstant
  obtain ⟨c, hc, rfl⟩ := List.mem_map.1 hconstant
  cases c with
  | closure index =>
    have hlt := hm.closures _ hp index (Array.mem_toList_iff.1 hc)
    simp only [DraftConstant.image, if_neg (by omega : ¬ m.prototypes.size ≤ index.toNat)]
  | _ => rfl

/-- The prototypes and the position of the main one end a module. -/
theorem finishes_prototypes (hm : m.Readable) :
    Finishes (do
        let count ← varint
        let prototypes ← readPrototypes id version m.strings.toList count 0
        match prototypes.findSome? (missingPrototype? count) with
        | some corruption => corrupt corruption
        | none => pure ()
        let main ← varint
        if count ≤ main then corrupt (.missingRoot main count)
        let left := (← get).remaining
        if left ≠ 0 then corrupt (.trailing left)
        return (⟨version, typesVersion, m.strings.toList, nameMain main prototypes, main⟩ : Image))
      (Encode.counted (PrototypeDraft.encode version) m.prototypes.toList ++
        Encode.varint m.main.toNat)
      ⟨version, typesVersion, m.strings.toList, nameMain m.main.toNat m.images, m.main.toNat⟩ := by
  have hprototypes : Reads (readPrototypes id version m.strings.toList m.prototypes.toList.length 0)
      (m.prototypes.toList.flatMap (PrototypeDraft.encode version))
      (m.prototypes.toList.mapIdx fun i p => p.image m.strings.toList (0 + i)) :=
    reads_prototypes 0 fun p hp => hm.prototypes p (Array.mem_toList_iff.1 hp)
  simp only [Nat.zero_add, Array.length_toList] at hprototypes
  rw [Encode.counted, List.append_assoc]
  refine (reads_varint hm.prototypes_size).finishes ?_
  refine hprototypes.finishes ?_
  have hmissing := missingPrototype?_images hm
  rw [ModuleDraft.images] at hmissing
  simp only [hmissing]
  rw [← List.append_nil (Encode.varint _)]
  refine (reads_varint m.main.toNat_lt).finishes ?_
  rw [if_neg (Nat.not_le.2 hm.main)]
  intro position
  rfl

/-- The names of the host's types, of which drafts have none. -/
theorem finishes_noTypeNames {rest : Reader Image} {bytes : Bytes} {image : Image}
    (h : Finishes rest bytes image) :
    Finishes (do
        skipTypeNames (← get).remaining.succ
        rest) (0 :: bytes) image := by
  intro position
  have hrest := h (position + 1)
  rw [List.length_cons, Nat.add_comm bytes.length, ← Nat.add_assoc]
  exact hrest

/-- Reading undoes writing, for every version of the format. -/
theorem finishes_reader (hm : m.Readable) (hmin : 3 ≤ version) (hmax : version ≤ 6) :
    Finishes (reader id) (m.serialize version typesVersion) (m.image version typesVersion) := by
  rw [reader, ModuleDraft.serialize]
  simp only [List.append_assoc, List.cons_append]
  refine (reads_byte version).finishes ?_
  have hzero : version ≠ 0 := by
    rintro rfl
    exact absurd hmin (by decide)
  have hrange : ¬ (version.toNat < minVersion ∨ maxVersion < version.toNat) := by
    rw [UInt8.le_iff_toNat_le] at hmin hmax
    simp only [minVersion, maxVersion, UInt8.reduceToNat] at *
    omega
  have hstrings : Reads (counted string) (Encode.counted ModuleDraft.encodeString m.strings.toList)
      m.strings.toList := by
    have hread : Reads (counted string) (Encode.counted ModuleDraft.encodeString m.strings.toList)
        (m.strings.toList.map id) := reads_counted hm.strings_size fun s hs =>
      reads_string (hm.strings_length s (Array.mem_toList_iff.1 hs))
    rwa [List.map_id] at hread
  rw [if_neg hzero, if_neg hrange]
  by_cases hversion : 4 ≤ version
  · have hrest := @finishes_prototypes m version typesVersion hm
    simp only [ModuleDraft.image, if_pos hversion]
    refine (reads_byte typesVersion).finishes ?_
    refine hstrings.finishes ?_
    by_cases htypes : typesVersion = 3
    · simp only [if_pos htypes, if_pos (And.intro hversion htypes)]
      exact finishes_noTypeNames hrest
    · simp only [if_neg htypes, if_neg fun h : 4 ≤ version ∧ typesVersion = 3 => htypes h.2]
      exact hrest
  · have hrest := @finishes_prototypes m version 0 hm
    simp only [ModuleDraft.image, if_neg hversion]
    refine (Reads.pure 0).finishes ?_
    refine hstrings.finishes ?_
    simp only [if_neg fun h : 4 ≤ version ∧ typesVersion = 3 => hversion h.1]
    exact hrest

end Image

/-! ## Linking -/

/-- Steps that leave the state alone leave it alone one after the other. -/
theorem mapM_of_pure {σ α β : Type} {f : α → StateM σ β} {g : α → β} {s : σ}
    (h : ∀ a, f a s = (g a, s)) (items : List α) : items.mapM f s = (items.map g, s) := by
  induction items with
  | nil => rfl
  | cons item items ih =>
    rw [List.mapM_cons, List.map_cons]
    change StateT.bind (f item) _ s = _
    rw [StateT.bind, h item]
    change StateT.bind (items.mapM f) _ s = _
    rw [StateT.bind, ih]
    rfl

namespace LoadOptions

variable {options : LoadOptions}

/-- A constant as it is loaded when the host makes no vectors of its own. -/
def plainConstant (options : LoadOptions) : Constant → Constant
  | .vector (.vector v) =>
    .vector (.vector (if options.vectorSize = 4 then v else { v with w := 0 }))
  | constant => constant

/-- The constants of a prototype as they are loaded. -/
def plainConstants (options : LoadOptions) (p : PrototypeImage) : Array Constant :=
  (p.constants.map options.plainConstant).toArray

/-- A prototype as it is loaded. -/
def plainPrototype (options : LoadOptions) (heap : Heap) (p : PrototypeImage) : Prototype :=
  { p.toPrototypeHeader with
    code := (p.code.flatMap (options.linkUnit heap (options.plainConstants p))).toArray,
    constants := options.plainConstants p }

theorem linkConstant_of_plain (h : options.makeVector = none) (heap : Heap) (constant : Constant) :
    options.linkConstant constant heap = (options.plainConstant constant, heap) := by
  cases constant with
  | vector value =>
    cases value with
    | vector v => simp only [linkConstant, plainConstant, vectorValue, h]
    | _ => rfl
  | _ => rfl

theorem linkPrototype_of_plain (h : options.makeVector = none) (heap : Heap) (p : PrototypeImage) :
    options.linkPrototype p heap = (options.plainPrototype heap p, heap) := by
  rw [linkPrototype]
  change StateT.bind (p.constants.mapM options.linkConstant) _ heap = _
  rw [StateT.bind, mapM_of_pure (linkConstant_of_plain h heap)]
  rfl

theorem link_of_plain (h : options.makeVector = none) (heap : Heap) (image : Image) :
    options.link image heap =
      (⟨image.version, image.typesVersion, image.strings,
        (image.prototypes.map (options.plainPrototype heap)).toArray, image.main⟩, heap) := by
  rw [link]
  change StateT.bind (image.prototypes.mapM options.linkPrototype) _ heap = _
  rw [StateT.bind, mapM_of_pure (linkPrototype_of_plain h heap)]
  rfl

/-- Loading what a draft was written as gives its image, linked. -/
theorem load_serialize {m : ModuleDraft} {version : UInt8} (hm : m.Readable)
    (hmin : 3 ≤ version) (hmax : version ≤ 6) (typesVersion : UInt8)
    (hdecode : options.decodeWord = none) (hvector : options.makeVector = none) (heap : Heap) :
    options.load (m.serialize version typesVersion) heap =
      .ok (⟨version, if 4 ≤ version then typesVersion else 0, m.strings.toList,
        ((Image.nameMain m.main.toNat m.images).map (options.plainPrototype heap)).toArray,
        m.main.toNat⟩, heap) := by
  have hread : Image.read (options.decodeWord.getD id) (m.serialize version typesVersion) =
      .ok (m.image version typesVersion) := by
    rw [hdecode, Option.getD_none, Image.read, Cursor.ofBytes, Image.finishes_reader hm hmin hmax]
  rw [load, hread, Except.map, link_of_plain hvector]
  rfl

end LoadOptions

end ScriptMachine
