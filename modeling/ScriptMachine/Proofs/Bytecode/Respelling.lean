import Mathlib
import ScriptMachine.Proofs.Bytecode.Loading
import ScriptMachine.Proofs.Bytecode.Spelling

/-!
# Other spellings of a module

A byte string that is loaded can be cut into parts.  What is passed over has no influence on the
module: any other complete blocks in the places of those that there are give the same one.  And the
decoding of words is transparent: when each instruction word is written in a way that the host's
decoder undoes, the module is the one that is loaded from the plain words without a decoder.
-/

namespace ScriptMachine

open Reader Image

/-! ## Parts of a module -/

/-- The bytes of a module, cut into parts. -/
structure ImageParts where
  /-- The versions and the strings. -/
  head : Bytes
  /-- The names of the host's types, if the version of the annotations has them. -/
  typeNames : Option Bytes
  /-- The count of prototypes. -/
  count : Bytes
  /-- The prototypes. -/
  prototypes : List PrototypeParts
  /-- The number of the main prototype. -/
  main : Bytes
deriving DecidableEq

namespace ImageParts

/-- All bytes of the module. -/
def bytes (m : ImageParts) : Bytes :=
  m.head ++ (m.typeNames.getD [] ++ (m.count ++ (m.prototypes.flatMap PrototypeParts.bytes ++
    m.main)))

/-- The parts with instruction words changed. -/
def recode (f : UInt32 → UInt32) (m : ImageParts) : ImageParts :=
  { m with prototypes := m.prototypes.map (PrototypeParts.recode f) }

/-- The parts are others with instruction words changed and blocks replaced. -/
structure Respells (f : UInt32 → UInt32) (m m' : ImageParts) : Prop where
  /-- The versions and the strings are the same. -/
  head : m'.head = m.head
  /-- The names of the host's types may be others. -/
  typeNames : Replaced Format.typeNames m.typeNames m'.typeNames
  /-- The count of prototypes is the same. -/
  count : m'.count = m.count
  /-- Instruction words and blocks of the prototypes are changed. -/
  prototypes : List.Forall₂ (PrototypeParts.Respells f) m.prototypes m'.prototypes
  /-- The main prototype is the same. -/
  main : m'.main = m.main

end ImageParts

namespace Image

/-- The versions and the strings of a module. -/
def readHead : Reader (UInt8 × UInt8 × List Bytes) := do
  let version ← byte
  if version = 0 then corrupt .compileError
  if version.toNat < minVersion ∨ maxVersion < version.toNat then
    corrupt (.version version.toNat)
  let typesVersion ← if 4 ≤ version then byte else pure 0
  return (version, typesVersion, ← counted string)

/-- Fails unless all prototypes that others refer to are there. -/
def checkPrototypes (count : Nat) (prototypes : List PrototypeImage) : Reader Unit :=
  match prototypes.findSome? (missingPrototype? count) with
  | some corruption => corrupt corruption
  | none => pure ()

/-- The number of the main prototype, once all prototypes are there. -/
def readMain (count : Nat) (prototypes : List PrototypeImage) : Reader Nat := do
  checkPrototypes count prototypes
  let main ← varint
  if count ≤ main then corrupt (.missingRoot main count)
  return main

/-- Fails unless all bytes have been read. -/
def checkEnd : Reader Unit := do
  let left := (← get).remaining
  if left ≠ 0 then corrupt (.trailing left)

/-- The parts of prototypes one after the other. -/
def cutPrototypes (version : UInt8) (strings : List Bytes) :
    Nat → Nat → Reader (List PrototypeParts)
  | 0, _ => pure []
  | count + 1, index => do
    let first ← cutPrototype version strings index
    let others ← cutPrototypes version strings count (index + 1)
    return first :: others

/-- The parts of a module. -/
def cutter : Reader ImageParts := do
  let head ← taken readHead
  let typeNames ← takeIf (head.1.2.1 = 3) skipAllTypeNames
  let count ← taken varint
  let prototypes ← cutPrototypes head.1.1 head.1.2.2 count.1 0
  let main ← taken varint
  return ⟨head.2, typeNames, count.2, prototypes, main.2⟩

/-- The parts that a byte string is cut into. -/
def cut (bytes : Bytes) : Except LoadError ImageParts :=
  match cutter (.ofBytes bytes) with
  | .ok parts _ => .ok parts
  | .error e _ => .error e

theorem checkPrototypes_bind {α : Type} (count : Nat) (prototypes : List PrototypeImage)
    (f : Unit → Reader α) : checkPrototypes count prototypes >>= f =
      match prototypes.findSome? (missingPrototype? count) with
      | some corruption => corrupt corruption
      | none => f () := by
  unfold checkPrototypes
  split
  · rfl
  · rfl

/-- A module is read part by part. -/
theorem reader_eq (decode : UInt32 → UInt32) : reader decode = (do
    let (version, typesVersion, strings) ← readHead
    passIf (typesVersion = 3) skipAllTypeNames
    let count ← varint
    let prototypes ← readPrototypes decode version strings count 0
    let main ← readMain count prototypes
    checkEnd
    return ⟨version, typesVersion, strings, nameMain main prototypes, main⟩) := by
  -- each of the two readers becomes one sequence of binds on its own
  generalize hwhole : reader decode = whole
  unfold reader at hwhole
  simp only [pure_bind, corrupt_bind] at hwhole
  unfold readHead readMain checkEnd passIf skipAllTypeNames
  simp only [ite_bind, bind_assoc, pure_bind, corrupt_bind]
  simp only [checkPrototypes_bind]
  exact hwhole.symm

theorem exact_readHead : Exact readHead := by
  have h := modular_exact
  refine h.bind h.byte fun version => ?_
  extract_lets body typed checked
  have hbody : ∀ typesVersion, Exact (body typesVersion) :=
    fun _ => h.map (h.counted h.string) _
  have htyped : ∀ u, Exact (typed u) := fun _ =>
    h.ite (h.bind h.byte hbody) (h.bind (h.pure 0) hbody)
  have hchecked : ∀ u, Exact (checked u) := fun _ =>
    h.ite (h.bind (h.corrupt _) htyped) (htyped ())
  exact h.ite (h.bind (h.corrupt _) hchecked) (hchecked ())

theorem exact_readMain (count : Nat) (prototypes : List PrototypeImage) :
    Exact (readMain count prototypes) := by
  have h := modular_exact
  have hcheck : Exact (checkPrototypes count prototypes) := by
    unfold checkPrototypes
    split
    · exact h.corrupt _
    · exact h.pure ()
  refine h.bind hcheck fun _ => h.bind h.varint fun main => ?_
  exact h.ite (h.bind (h.corrupt _) fun _ => h.pure main) (h.pure main)

end Image

section Prototypes

variable {decode f : UInt32 → UInt32} {version : UInt8} {strings : List Bytes} {index : Nat}
  {qs qs' : List PrototypeParts} {ps : List PrototypeImage}

/-- Parts one after the other make prototypes one after the other. -/
inductive PrototypeParts.SpellAll (decode : UInt32 → UInt32) (version : UInt8)
    (strings : List Bytes) : Nat → List PrototypeParts → List PrototypeImage → Prop
  /-- There are none. -/
  | nil {index : Nat} : SpellAll decode version strings index [] []
  /-- The first ones make a prototype, and the others make others. -/
  | cons {index : Nat} {q : PrototypeParts} {p : PrototypeImage} {qs : List PrototypeParts}
    {ps : List PrototypeImage} (first : q.Spells decode version strings index p)
    (others : SpellAll decode version strings (index + 1) qs ps) :
    SpellAll decode version strings index (q :: qs) (p :: ps)

open PrototypeParts

theorem PrototypeParts.SpellAll.reads (h : SpellAll decode version strings index qs ps) :
    Reads (readPrototypes decode version strings qs.length index)
      (qs.flatMap PrototypeParts.bytes) ps := by
  induction h with
  | nil => exact Reads.pure []
  | cons first _ ih => exact first.reads.bind (ih.map _)

theorem PrototypeParts.SpellAll.respell (h : SpellAll id version strings index qs ps)
    (hdecode : ∀ w, decode (f w) = w) (hqs : List.Forall₂ (Respells f) qs qs') :
    SpellAll decode version strings index qs' ps := by
  induction h generalizing qs' with
  | nil =>
    cases hqs
    exact .nil
  | cons first _ ih =>
    cases hqs with
    | cons hq hqs => exact .cons (first.respell hdecode hq) (ih hqs)

theorem PrototypeParts.SpellAll.respells_recode (h : SpellAll decode version strings index qs ps)
    (f : UInt32 → UInt32) : List.Forall₂ (Respells f) qs (qs.map (recode f)) := by
  induction h with
  | nil => exact .nil
  | cons first _ ih => exact .cons ⟨first.types.same, first.names.same, rfl⟩ ih

theorem ensures_cutPrototypes (count index : Nat) (c : Cursor) :
    Ensures (readPrototypes id version strings count index) c fun ps c' =>
      ∃ qs, cutPrototypes version strings count index c = .ok qs c' ∧
        c.Spans (qs.flatMap PrototypeParts.bytes) c' ∧ qs.length = count ∧
          SpellAll id version strings index qs ps := by
  induction count generalizing index c with
  | zero => exact .pure ⟨[], rfl, .refl c, rfl, .nil⟩
  | succ count ih =>
    refine .bind fun p c₁ hfirst => .bind fun ps c₂ hothers => .pure ?_
    obtain ⟨q, hcut, hspans, hspells⟩ := ensures_cutPrototype index c p c₁ hfirst
    obtain ⟨qs, hcuts, hspans', hlength, hall⟩ := ih (index + 1) c₁ ps c₂ hothers
    refine ⟨q :: qs, ?_, hspans.trans hspans', congrArg Nat.succ hlength, .cons hspells hall⟩
    rw [cutPrototypes, bind_of_ok hcut, bind_of_ok hcuts]
    rfl

end Prototypes

/-! ## Modules and their parts -/

/-- The parts make a module, its instruction words being decoded. -/
structure ImageParts.Spells (decode : UInt32 → UInt32) (m : ImageParts) (image : Image) : Prop where
  /-- The versions and the strings are as they say. -/
  head : Reads readHead m.head (image.version, image.typesVersion, image.strings)
  /-- There are complete names of types if the version of the annotations has them. -/
  typeNames : Placed (image.typesVersion = 3) Format.typeNames m.typeNames
  /-- There are as many prototypes as they say. -/
  count : Reads varint m.count m.prototypes.length
  /-- The prototypes, the main one of which is named afterwards, are made of their parts. -/
  prototypes : ∃ ps, image.prototypes = nameMain image.main ps ∧
    PrototypeParts.SpellAll decode image.version image.strings 0 m.prototypes ps ∧
      Reads (readMain m.prototypes.length ps) m.main image.main

section Module

variable {decode f : UInt32 → UInt32} {m m' : ImageParts} {image : Image} {bytes : Bytes}

theorem finishes_checkEnd {α : Type} (a : α) : Finishes (do checkEnd; return a) [] a :=
  fun _ => rfl

/-- A module is read from its parts. -/
theorem ImageParts.Spells.read (h : m.Spells decode image) :
    Image.read decode m.bytes = .ok image := by
  obtain ⟨ps, hnamed, hall, hmain⟩ := h.prototypes
  have hfinishes : Finishes (reader decode) m.bytes image := by
    obtain ⟨version, typesVersion, strings, prototypes, main⟩ := image
    obtain rfl : prototypes = nameMain main ps := hnamed
    rw [reader_eq, ImageParts.bytes]
    refine h.head.finishes ((reads_passIf passes_skipAllTypeNames h.typeNames).finishes ?_)
    refine h.count.finishes (hall.reads.finishes ?_)
    rw [← List.append_nil m.main]
    exact hmain.finishes (finishes_checkEnd _)
  rw [Image.read, Cursor.ofBytes, hfinishes 0]

theorem ensures_checkEnd (c : Cursor) : Ensures checkEnd c fun _ _ => c.rest = [] := by
  intro _ c' hrun
  by_cases hleft : c.remaining = 0
  · exact List.length_eq_zero_iff.1 hleft
  · have hfails : checkEnd c = .error (.corrupt (.trailing c.remaining)) c := by
      show (if c.remaining ≠ 0 then corrupt (.trailing c.remaining) else pure () :
        Reader Unit) c = _
      rw [if_pos hleft]
      rfl
    rw [hfails] at hrun
    cases hrun

theorem ensures_readMain (count : Nat) (ps : List PrototypeImage) (c : Cursor) :
    Ensures (readMain count ps) c fun main c' => varint c = .ok main c' := by
  unfold readMain
  rw [checkPrototypes_bind]
  split
  · exact .corrupt
  · exact .bind fun main c₁ hmain => .unless fun _ => .pure hmain

theorem ensures_cut (bytes : Bytes) : Ensures (reader id) (.ofBytes bytes) fun image _ =>
    ∃ m, cut bytes = .ok m ∧ m.bytes = bytes ∧ m.Spells id image := by
  rw [reader_eq]
  refine .bind fun head c₁ hhead => .bind fun _ c₂ hnames => .bind fun count c₃ hcount =>
    .bind fun ps c₄ hps => .bind fun main c₅ hmain => .bind fun _ c₆ hend => .pure ?_
  obtain ⟨b₁, hreads₁, hspans₁⟩ := exact_readHead.ensures _ head c₁ hhead
  obtain ⟨typeNames, htake₂, hspans₂, hplaced₂⟩ :=
    ensures_passIf passes_skipAllTypeNames c₁ _ c₂ hnames
  obtain ⟨b₃, hreads₃, hspans₃⟩ := modular_exact.varint.ensures c₂ count c₃ hcount
  obtain ⟨qs, hcut₄, hspans₄, rfl, hall⟩ := ensures_cutPrototypes count 0 c₃ ps c₄ hps
  obtain ⟨b₅, hreads₅, hspans₅⟩ := (exact_readMain qs.length ps).ensures c₄ main c₅ hmain
  have hlast : c₅.rest = [] := ensures_checkEnd c₅ _ c₆ hend
  have hvarint : varint c₄ = .ok main c₅ := ensures_readMain qs.length ps c₄ main c₅ hmain
  refine ⟨⟨b₁, typeNames, b₃, qs, b₅⟩, ?_, ?_, ?_⟩
  · rw [cut, cutter, bind_of_ok (taken_of_ok hhead hspans₁), bind_of_ok htake₂,
      bind_of_ok (taken_of_ok hcount hspans₃), bind_of_ok hcut₄,
      bind_of_ok (taken_of_ok hvarint hspans₅)]
    rfl
  · have hspans := hspans₁.trans (hspans₂.trans (hspans₃.trans (hspans₄.trans hspans₅)))
    have hbytes := hspans.rest
    rw [hlast, List.append_nil] at hbytes
    exact hbytes.symm
  · exact
      { head := hreads₁
        typeNames := hplaced₂
        count := hreads₃
        prototypes := ⟨ps, rfl, hall, hreads₅⟩ }

/-- A module that is read is made of the parts that its bytes are cut into. -/
theorem exists_cut (h : Image.read id bytes = .ok image) :
    ∃ m, cut bytes = .ok m ∧ m.bytes = bytes ∧ m.Spells id image := by
  rw [Image.read] at h
  cases hrun : reader id (.ofBytes bytes) with
  | ok image' c' =>
    rw [hrun] at h
    cases h
    exact ensures_cut bytes image c' hrun
  | error e c' =>
    rw [hrun] at h
    cases h

theorem ImageParts.Spells.respell (h : m.Spells id image) (hdecode : ∀ w, decode (f w) = w)
    (hm : m.Respells f m') : m'.Spells decode image := by
  obtain ⟨ps, hnamed, hall, hmain⟩ := h.prototypes
  have hlength := hm.prototypes.length_eq
  have hcount := h.count
  rw [hlength] at hcount hmain
  exact
    { head := hm.head ▸ h.head
      typeNames := h.typeNames.replaced hm.typeNames
      count := hm.count ▸ hcount
      prototypes := ⟨ps, hnamed, hall.respell hdecode hm.prototypes, hm.main ▸ hmain⟩ }

/-- A module is made of its parts with nothing but instruction words changed. -/
theorem ImageParts.Spells.respells_recode (h : m.Spells id image) (f : UInt32 → UInt32) :
    m.Respells f (m.recode f) := by
  obtain ⟨ps, -, hall, -⟩ := h.prototypes
  exact
    { head := rfl
      typeNames := h.typeNames.same
      count := rfl
      prototypes := hall.respells_recode f
      main := rfl }

end Module

namespace LoadOptions

variable {options : LoadOptions} {bytes : Bytes} {heap : Heap} {loaded : Module × Heap}

/-- A module that is loaded with its words as they are is cut into parts, and is what is made of the
image that they spell. -/
theorem exists_cut_of_load (hdecode : options.decodeWord = none)
    (h : options.load bytes heap = .ok loaded) :
    ∃ m image, Image.cut bytes = .ok m ∧ m.bytes = bytes ∧ m.Spells id image ∧
      options.link image heap = loaded := by
  obtain ⟨image, hread⟩ := read_of_load h
  rw [load, hread] at h
  rw [hdecode] at hread
  obtain ⟨m, hcut, hbytes, hspells⟩ := exists_cut hread
  exact ⟨m, image, hcut, hbytes, hspells, Except.ok.inj h⟩

/-- What is passed over has no influence.  The bytes of a module that is loaded are cut into parts,
among them complete type annotations of every prototype, if the version of the format has them,
names of types, if the version of the annotations has them, and names of variables.  With any other
complete blocks in their places, of whatever lengths, the bytes are loaded as the same module. -/
theorem load_replaced (hdecode : options.decodeWord = none)
    (h : options.load bytes heap = .ok loaded) :
    ∃ m image, Image.cut bytes = .ok m ∧ m.bytes = bytes ∧ m.Spells id image ∧
      options.link image heap = loaded ∧
        ∀ m', m.Respells id m' → options.load m'.bytes heap = .ok loaded := by
  obtain ⟨m, image, hcut, hbytes, hspells, hlink⟩ := exists_cut_of_load hdecode h
  refine ⟨m, image, hcut, hbytes, hspells, hlink, fun m' hm' => ?_⟩
  have hspells' : m'.Spells id image := hspells.respell (fun _ => rfl) hm'
  rw [load, hdecode]
  exact (congrArg (Except.map _) hspells'.read).trans (congrArg Except.ok hlink)

/-- The parts of a module with a block of every sort that is passed over. -/
def layeredParts : ImageParts where
  head := [6, 3, 1, 2, 0x68, 0x69]
  typeNames := some [1, 0x81, 1, 0]
  count := [1]
  prototypes := [
    { sizes := [2, 0, 0, 1, 0]
      types := some [3, 7, 7, 7]
      length := [3]
      code := [(0x42, some 0), (0x00020016, none)]
      contents := [1, 3, 1, 0, 5, 1, 1, 2, 1, 0, 1, 9, 0, 0, 0, 1]
      names := some [1, 1, 0, 3, 0, 1, 1] }]
  main := [0]

theorem cut_layeredModule : Image.cut layeredModule = .ok layeredParts := by
  have hcheck : (match Image.cut layeredModule with
      | .ok m => decide (m = layeredParts)
      | .error _ => false) = true := by
    decide +kernel
  cases hcut : Image.cut layeredModule with
  | ok m =>
    rw [hcut] at hcheck
    exact congrArg Except.ok (of_decide_eq_true hcheck)
  | error e =>
    rw [hcut] at hcheck
    cases hcheck

theorem exists_load_layeredModule :
    ∃ loaded, LoadOptions.load {} layeredModule {} = .ok loaded := by
  have hcheck : (match LoadOptions.load {} layeredModule {} with
      | .ok _ => true
      | .error _ => false) = true := by
    decide +kernel
  cases hload : LoadOptions.load {} layeredModule {} with
  | ok loaded => exact ⟨loaded, rfl⟩
  | error e =>
    rw [hload] at hcheck
    cases hcheck

/-- A module that differs from another one in all that is passed over. -/
def relayeredModule : Bytes :=
  [6, 3, 1, 2, 0x68, 0x69, 0, 1,
    2, 0, 0, 1, 0, 2, 8, 9, 3, 0x42, 0, 0, 0, 0, 0, 0, 0, 0x16, 0, 2, 0, 1, 3, 1, 0, 5, 1,
    1, 2, 1, 0, 1, 9, 0, 0, 0, 1, 0, 0,
    0]

/-- With shorter annotations, no names of types and no names of variables the module is the same. -/
theorem load_relayeredModule : ∃ loaded, LoadOptions.load {} layeredModule {} = .ok loaded ∧
    LoadOptions.load {} relayeredModule {} = .ok loaded := by
  obtain ⟨loaded, hload⟩ := exists_load_layeredModule
  obtain ⟨m, image, hcut, -, -, -, hreplaced⟩ := load_replaced rfl hload
  obtain rfl : layeredParts = m := Except.ok.inj (cut_layeredModule.symm.trans hcut)
  let blocks : ImageParts :=
    { layeredParts with
      typeNames := some [0]
      prototypes := layeredParts.prototypes.map fun q =>
        { q with types := some [2, 8, 9], names := some [0, 0] } }
  have hzero : [0] ∈ Format.numberOf 0 := Format.mem_numberOf (b := 0) (by decide)
  have htypes : [2, 8, 9] ∈ Format.types :=
    Format.append_mem_counted (Format.mem_numberOf (b := 2) (by decide))
      ((mem_anyByte_pow 2 [8, 9]).2 rfl)
  have hnames : [0, 0] ∈ Format.names :=
    Language.append_mem_mul (Format.append_mem_counted hzero Language.nil_mem_one)
      (Format.append_mem_counted hzero Language.nil_mem_one)
  have hrespells : layeredParts.Respells id blocks :=
    { head := rfl
      typeNames := .present (Language.append_mem_mul (a := []) (Language.nil_mem_kstar _) rfl)
      count := rfl
      prototypes := .cons ⟨.present htypes, .present hnames, rfl⟩ .nil
      main := rfl }
  exact ⟨loaded, hload, hreplaced blocks hrespells⟩

/-- The words of a module may be written in another way.  The bytes of a module that is loaded are
cut into parts, among them every instruction of its code with its auxiliary word.  With each
instruction word, but no auxiliary word, put through a function that the host's decoder undoes, the
bytes are loaded as the same module. -/
theorem load_recode {f g : UInt32 → UInt32} (hg : ∀ w, g (f w) = w)
    (hdecode : options.decodeWord = none) (h : options.load bytes heap = .ok loaded) :
    ∃ m image, Image.cut bytes = .ok m ∧ m.bytes = bytes ∧ m.Spells id image ∧
      options.link image heap = loaded ∧
        { options with decodeWord := some g }.load (m.recode f).bytes heap = .ok loaded := by
  obtain ⟨m, image, hcut, hbytes, hspells, hlink⟩ := exists_cut_of_load hdecode h
  refine ⟨m, image, hcut, hbytes, hspells, hlink, ?_⟩
  have hread := (hspells.respell hg (hspells.respells_recode f)).read
  -- Linking does not look at the decoder.
  have hsame : { options with decodeWord := some g }.link image heap = loaded := hlink
  exact (congrArg (Except.map _) hread).trans (congrArg Except.ok hsame)

/-- With the low bytes of two instruction words inverted, but not of the auxiliary word between
them, a decoder that inverts them once more gives the same module. -/
theorem load_recode_layeredModule : ∃ loaded, LoadOptions.load {} layeredModule {} = .ok loaded ∧
    LoadOptions.load { decodeWord := some (· ^^^ 0xff) }
      [6, 3, 1, 2, 0x68, 0x69, 1, 0x81, 1, 0, 1,
        2, 0, 0, 1, 0, 3, 7, 7, 7, 3, 0xbd, 0, 0, 0, 0, 0, 0, 0, 0xe9, 0, 2, 0, 1, 3, 1, 0, 5, 1,
        1, 2, 1, 0, 1, 9, 0, 0, 0, 1, 1, 1, 0, 3, 0, 1, 1,
        0] {} = .ok loaded := by
  have hinverse : ∀ w : UInt32, w ^^^ 0xff ^^^ 0xff = w := by
    intro w
    rw [UInt32.xor_assoc, UInt32.xor_self, UInt32.xor_zero]
  obtain ⟨loaded, hload⟩ := exists_load_layeredModule
  obtain ⟨m, image, hcut, -, -, -, hrecoded⟩ :=
    load_recode (g := (· ^^^ 0xff)) hinverse rfl hload
  obtain rfl : layeredParts = m := Except.ok.inj (cut_layeredModule.symm.trans hcut)
  exact ⟨loaded, hload, hrecoded⟩

end LoadOptions

end ScriptMachine
