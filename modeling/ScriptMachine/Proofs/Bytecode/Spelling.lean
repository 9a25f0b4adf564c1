import Mathlib
import ScriptMachine.Proofs.Bytecode.Blocks

/-!
# Parts of a prototype

The bytes of a prototype are cut into parts: the blocks that are passed over, the words of the code,
and everything else.  Parts *spell* a prototype when it is read from them, and they still do when
blocks are replaced by others of their format, and when instruction words, but not auxiliary words,
are written in another way that the decoding of words undoes.
-/

namespace ScriptMachine

open Reader

/-! ## Taking bytes -/

namespace Reader

/-- What a reader gives, with the bytes that it takes. -/
def taken {α : Type} (r : Reader α) : Reader (α × Bytes) := fun c =>
  match r c with
  | .ok a c' => .ok (a, c.rest.take (c'.position - c.position)) c'
  | .error e c' => .error e c'

/-- Passes over a block, if there is one. -/
def passIf (present : Prop) [Decidable present] (r : Reader Unit) : Reader Unit :=
  if present then r else pure ()

/-- The bytes of a block, if there is one. -/
def takeIf (present : Prop) [Decidable present] (r : Reader Unit) : Reader (Option Bytes) :=
  if present then (do return some (← taken r).2) else pure none

/-- There is a block exactly if there should be one, and it is complete. -/
def Placed (present : Prop) (L : Language UInt8) : Option Bytes → Prop
  | some block => present ∧ block ∈ L
  | none => ¬ present

/-- Another complete block is in the place of one. -/
inductive Replaced (L : Language UInt8) : Option Bytes → Option Bytes → Prop
  /-- There is none. -/
  | absent : Replaced L none none
  /-- There is one. -/
  | present {block other : Bytes} (h : other ∈ L) : Replaced L (some block) (some other)

section Blocks

variable {α : Type} {r : Reader α} {a : α} {c c' : Cursor} {bytes : Bytes} {present : Prop}
  {pass : Reader Unit} {L : Language UInt8} {block other : Option Bytes}

theorem taken_of_ok (hrun : r c = .ok a c') (hspans : c.Spans bytes c') :
    taken r c = .ok (a, bytes) c' := by
  have htake : c.rest.take (c'.position - c.position) = bytes := by
    rw [hspans.rest, hspans.position, Nat.add_sub_cancel_left, List.take_left]
  rw [taken, hrun]
  exact congrArg (fun bytes => EStateM.Result.ok (a, bytes) c') htake

theorem Placed.isSome_iff (h : Placed present L block) : block.isSome = true ↔ present := by
  cases block with
  | none => exact ⟨nofun, fun hp => absurd hp h⟩
  | some block => exact ⟨fun _ => h.1, fun _ => rfl⟩

theorem Placed.replaced (h : Placed present L block) (hother : Replaced L block other) :
    Placed present L other := by
  cases hother with
  | absent => exact h
  | present hmem => exact ⟨h.1, hmem⟩

/-- A complete block can be in its own place. -/
theorem Placed.same (h : Placed present L block) : Replaced L block block := by
  cases block with
  | none => exact .absent
  | some block => exact .present h.2

theorem Replaced.isSome_eq (h : Replaced L block other) : block.isSome = other.isSome := by
  cases h with
  | absent => rfl
  | present => rfl

variable [Decidable present]

/-- What comes behind a choice comes behind each of its sides. -/
theorem ite_bind {β : Type} (x y : Reader α) (f : α → Reader β) :
    (if present then x else y) >>= f = if present then x >>= f else y >>= f := by
  split
  · rfl
  · rfl

/-- Nothing is read behind a failure. -/
theorem corrupt_bind {β : Type} (corruption : Corruption) (f : α → Reader β) :
    (corrupt corruption : Reader α) >>= f = corrupt corruption := rfl

theorem ensures_passIf (h : Passes pass L) (c : Cursor) :
    Ensures (passIf present pass) c fun _ c' => ∃ block,
      takeIf present pass c = .ok block c' ∧ c.Spans (block.getD []) c' ∧
        Placed present L block := by
  unfold passIf takeIf
  split
  · rename_i hpresent
    intro a c' hrun
    obtain ⟨bytes, hbytes, hspans⟩ := h.ensures c a c' hrun
    refine ⟨some bytes, ?_, hspans, hpresent, hbytes⟩
    rw [bind_of_ok (taken_of_ok hrun hspans)]
    rfl
  · rename_i hpresent
    exact .pure ⟨none, rfl, .refl c, hpresent⟩

theorem reads_passIf (h : Passes pass L) (hblock : Placed present L block) :
    Reads (passIf present pass) (block.getD []) () := by
  unfold passIf
  cases block with
  | none =>
    rw [if_neg hblock]
    exact Reads.pure ()
  | some block =>
    rw [if_pos hblock.1]
    obtain ⟨_, hreads⟩ := h.reads hblock.2
    exact hreads

end Blocks

end Reader

/-! ## Parts of a prototype -/

/-- The words of an instruction, as they stand in the bytes. -/
abbrev InstructionWords := UInt32 × Option UInt32

namespace InstructionWords

/-- The bytes of an instruction. -/
def bytes (w : InstructionWords) : Bytes :=
  Encode.word w.1 ++ (w.2.map Encode.word).getD []

/-- The instruction with its word, but not its auxiliary word, changed. -/
def recode (f : UInt32 → UInt32) (w : InstructionWords) : InstructionWords := (f w.1, w.2)

end InstructionWords

/-- The words of an instruction. -/
def CodeUnit.words (u : CodeUnit) : InstructionWords := (u.word, u.aux)

/-- The bytes of a prototype, cut into parts. -/
structure PrototypeParts where
  /-- Counts of registers and the like. -/
  sizes : Bytes
  /-- The type annotations, if the version of the format has them. -/
  types : Option Bytes
  /-- The count of slots. -/
  length : Bytes
  /-- The code. -/
  code : List InstructionWords
  /-- What is between the code and the names of variables. -/
  contents : Bytes
  /-- The names of variables, if they are there. -/
  names : Option Bytes
deriving DecidableEq

namespace PrototypeParts

/-- All bytes of the prototype. -/
def bytes (q : PrototypeParts) : Bytes :=
  q.sizes ++ (q.types.getD [] ++ (q.length ++ (q.code.flatMap InstructionWords.bytes ++
    (q.contents ++ q.names.getD []))))

/-- The parts with instruction words changed. -/
def recode (f : UInt32 → UInt32) (q : PrototypeParts) : PrototypeParts :=
  { q with code := q.code.map (InstructionWords.recode f) }

/-- The parts are others with instruction words changed and blocks replaced. -/
structure Respells (f : UInt32 → UInt32) (q q' : PrototypeParts) : Prop where
  /-- The type annotations may be others. -/
  types : Replaced Format.types q.types q'.types
  /-- The names of variables may be others. -/
  names : Replaced Format.names q.names q'.names
  /-- Apart from them nothing but instruction words is changed. -/
  others : { q' with types := none, names := none } =
    { q.recode f with types := none, names := none }

end PrototypeParts

namespace Image

/-- Counts of registers, parameters and upvalues, whether there may be extra arguments, and the
flags if the version of the format has them. -/
def readSizes (version : UInt8) : Reader (UInt8 × UInt8 × UInt8 × Bool × UInt8) := do
  return (← byte, ← byte, ← byte, ← flag, ← if 4 ≤ version then byte else pure 0)

/-- What is between the code of a prototype and the names of its variables. -/
structure Contents where
  /-- The constants. -/
  constants : List Constant
  /-- The prototypes of the inner functions. -/
  children : List Nat
  /-- The line on which the prototype begins. -/
  lineDefined : Nat
  /-- Its name. -/
  name : Bytes
  /-- The line of every slot, if known. -/
  lines : Option (Array Int)
  /-- Whether names of variables follow. -/
  hasNames : Bool

/-- The contents of a prototype with some code. -/
def readContents (strings : List Bytes) (index size : Nat) (code : List CodeUnit) :
    Reader Contents := do
  let constants ← counted (readConstant strings)
  checkReferences index constants.length (code.flatMap CodeUnit.references)
  let children ← counted varint
  let lineDefined ← varint
  let name ← readName strings
  let lines ← if ← flag then (do return some (← readLines size)) else pure none
  return ⟨constants, children, lineDefined, name, lines, ← flag⟩

/-- The parts of a prototype. -/
def cutPrototype (version : UInt8) (strings : List Bytes) (index : Nat) :
    Reader PrototypeParts := do
  let sizes ← taken (readSizes version)
  let types ← takeIf (4 ≤ version) skipTypes
  let size ← taken varint
  let code ← readCode id index size.1 size.1
  let contents ← taken (readContents strings index size.1 code)
  let names ← takeIf (contents.1.hasNames = true) skipNames
  return ⟨sizes.2, types, size.2, code.map CodeUnit.words, contents.2, names⟩

/-- A prototype is read part by part. -/
theorem readPrototype_eq (decode : UInt32 → UInt32) (version : UInt8) (strings : List Bytes)
    (index : Nat) : readPrototype decode version strings index = (do
      let (maxStackSize, numParams, numUpvalues, isVararg, flags) ← readSizes version
      passIf (4 ≤ version) skipTypes
      let size ← varint
      let code ← readCode decode index size size
      let contents ← readContents strings index size code
      passIf (contents.hasNames = true) skipNames
      return ⟨⟨index, maxStackSize, numParams, numUpvalues, isVararg, flags, contents.children,
        contents.lineDefined, contents.name, contents.lines⟩, code, contents.constants⟩) := by
  unfold readPrototype readSizes readContents passIf
  by_cases h : 4 ≤ version
  · simp only [if_pos h, ite_bind, bind_assoc, pure_bind]
  · simp only [if_neg h, ite_bind, bind_assoc, pure_bind]

theorem exact_readSizes (version : UInt8) : Exact (readSizes version) := by
  have h := modular_exact
  refine h.bind h.byte fun _ => h.bind h.byte fun _ => h.bind h.byte fun _ => ?_
  refine h.bind h.flag fun _ => ?_
  exact h.ite (h.map h.byte _) (h.bind (h.pure 0) fun _ => h.pure _)

theorem exact_readContents (strings : List Bytes) (index size : Nat) (code : List CodeUnit) :
    Exact (readContents strings index size code) := by
  have h := modular_exact
  refine h.bind (h.counted (modular_readConstant h)) fun _ =>
    h.bind (modular_checkReferences h _ _ _) fun _ => h.bind (h.counted h.varint) fun _ =>
    h.bind h.varint fun _ => h.bind (modular_readName h) fun _ => h.bind h.flag fun _ => ?_
  refine h.ite ?_ ?_
  · exact h.bind (h.map (modular_readLines h size) some) fun _ => h.map h.flag _
  · exact h.bind (h.pure none) fun _ => h.map h.flag _

/-! ## Code -/

/-- The words of code that is read are those that the bytes hold. -/
theorem spans_readCode (index size left : Nat) (c : Cursor) :
    Ensures (readCode id index size left) c fun units c' =>
      c.Spans ((units.map CodeUnit.words).flatMap InstructionWords.bytes) c' := by
  -- An instruction with an auxiliary word takes two of the slots that are left.
  induction left using Nat.strong_induction_on generalizing c with
  | _ left ih =>
    cases left with
    | zero => exact .pure (.refl c)
    | succ left =>
      rw [readCode]
      refine .bind fun w c₁ hword => ?_
      have hspans := ensures_word c w c₁ hword
      extract_lets word
      split
      · intro units c' hrun
        cases hrun
      · split
        · refine .bind fun aux c₂ haux => ?_
          have hspans' := ensures_word c₁ aux c₂ haux
          cases left with
          | zero => exact .corrupt
          | succ left =>
            refine .bind fun others c₃ hothers => .pure ?_
            exact (hspans.trans hspans').trans (ih left (by omega) c₂ others c₃ hothers)
        · refine .bind fun others c₂ hothers => .pure ?_
          have hbytes := hspans.trans (ih left (by omega) c₁ others c₂ hothers)
          rw [← List.append_nil (Encode.word w)] at hbytes
          exact hbytes

/-- Words that are decoded as those of sound code are read as this code. -/
theorem reads_readCode (decode : UInt32 → UInt32) (index size : Nat) {units : List CodeUnit}
    (hsound : ∀ u ∈ units, u.Sound) :
    ∀ words : List InstructionWords,
      units.map CodeUnit.words = words.map (InstructionWords.recode decode) →
        Reads (readCode decode index size (CodeUnit.totalSize units))
          (words.flatMap InstructionWords.bytes) units := by
  induction units with
  | nil =>
    intro words h
    rw [List.map_nil, eq_comm, List.map_eq_nil_iff] at h
    subst h
    exact Reads.pure []
  | cons u units ih =>
    intro words h
    cases words with
    | nil => cases h
    | cons w words =>
      rw [List.map_cons, List.map_cons, List.cons.injEq] at h
      obtain ⟨hfirst, hothers⟩ := h
      rw [List.forall_mem_cons] at hsound
      have hmore := ih hsound.2 words hothers
      obtain ⟨opcode, word, aux⟩ := u
      obtain ⟨raw, aux'⟩ := w
      obtain rfl : word = decode raw := congrArg Prod.fst hfirst
      obtain rfl : aux = aux' := congrArg Prod.snd hfirst
      obtain ⟨⟨hopcode, haux⟩, -⟩ := hsound
      rw [CodeUnit.totalSize_cons, List.flatMap_cons, InstructionWords.bytes, List.append_assoc]
      cases aux with
      | none =>
        have hsize : CodeUnit.size ⟨opcode, decode raw, none⟩ + CodeUnit.totalSize units =
            CodeUnit.totalSize units + 1 := Nat.add_comm _ _
        have haux : opcode.info.hasAux = false := haux.symm
        rw [hsize, readCode]
        refine (reads_word raw).bind ?_
        simp only [hopcode, haux]
        exact hmore.map _
      | some aux =>
        have hsize : CodeUnit.size ⟨opcode, decode raw, some aux⟩ + CodeUnit.totalSize units =
            CodeUnit.totalSize units + 1 + 1 := Nat.add_comm _ _
        have haux : opcode.info.hasAux = true := haux.symm
        rw [hsize, readCode]
        refine (reads_word raw).bind ?_
        simp only [hopcode, haux, if_true]
        exact (reads_word aux).bind (hmore.map _)

end Image

open Image

/-! ## Prototypes and their parts -/

/-- The parts make a prototype, its instruction words being decoded. -/
structure PrototypeParts.Spells (decode : UInt32 → UInt32) (version : UInt8) (strings : List Bytes)
    (index : Nat) (q : PrototypeParts) (p : PrototypeImage) : Prop where
  /-- The position is the one that the parts are at. -/
  position : p.index = index
  /-- The counts are as they say. -/
  sizes : Reads (readSizes version) q.sizes
    (p.maxStackSize, p.numParams, p.numUpvalues, p.isVararg, p.flags)
  /-- There are complete type annotations if the version of the format has them. -/
  types : Placed (4 ≤ version) Format.types q.types
  /-- There are as many slots as they say. -/
  length : Reads varint q.length p.codeSize
  /-- The code is made of the words, once they are decoded. -/
  code : p.code.map CodeUnit.words = q.code.map (InstructionWords.recode decode)
  /-- The decoded words are those of instructions, and have auxiliary words accordingly. -/
  units : ∀ u ∈ p.code, u.Sound
  /-- The contents are as they say. -/
  contents : Reads (readContents strings index p.codeSize p.code) q.contents
    ⟨p.constants, p.children, p.lineDefined, p.name, p.lines, q.names.isSome⟩
  /-- The names of variables are complete. -/
  names : Placed (q.names.isSome = true) Format.names q.names

section Prototype

variable {decode f : UInt32 → UInt32} {version : UInt8} {strings : List Bytes} {index : Nat}
  {q q' : PrototypeParts} {p : PrototypeImage}

/-- A prototype is read from its parts. -/
theorem PrototypeParts.Spells.reads (h : q.Spells decode version strings index p) :
    Reads (readPrototype decode version strings index) q.bytes p := by
  rw [readPrototype_eq, PrototypeParts.bytes]
  refine h.sizes.bind ((reads_passIf passes_skipTypes h.types).bind (h.length.bind ?_))
  refine (reads_readCode decode index _ h.units q.code h.code).bind (h.contents.bind ?_)
  have hnames := (reads_passIf passes_skipNames h.names).map fun _ => p
  obtain ⟨⟨_, _, _, _, _, _, _, _, _, _⟩, _, _⟩ := p
  cases h.position
  exact hnames

/-- A prototype that is read is made of the parts that its bytes are cut into. -/
theorem ensures_cutPrototype (index : Nat) (c : Cursor) :
    Ensures (readPrototype id version strings index) c fun p c' =>
      ∃ q, cutPrototype version strings index c = .ok q c' ∧ c.Spans q.bytes c' ∧
        q.Spells id version strings index p := by
  rw [readPrototype_eq]
  refine .bind fun sizes c₁ hsizes => .bind fun _ c₂ htypes => .bind fun size c₃ hlength =>
    .bind fun code c₄ hcode => .bind fun contents c₅ hcontents => .bind fun _ c₆ hnames => .pure ?_
  obtain ⟨b₁, hreads₁, hspans₁⟩ := (exact_readSizes version).ensures c sizes c₁ hsizes
  obtain ⟨types, htake₂, hspans₂, hplaced₂⟩ := ensures_passIf passes_skipTypes c₁ _ c₂ htypes
  obtain ⟨b₃, hreads₃, hspans₃⟩ := modular_exact.varint.ensures c₂ size c₃ hlength
  have hspans₄ := spans_readCode index size size c₃ code c₄ hcode
  obtain ⟨hunits, htotal⟩ := ensures_readCode index size size c₃ code c₄ hcode
  obtain ⟨b₅, hreads₅, hspans₅⟩ :=
    (exact_readContents strings index size code).ensures c₄ contents c₅ hcontents
  obtain ⟨names, htake₆, hspans₆, hplaced₆⟩ := ensures_passIf passes_skipNames c₅ _ c₆ hnames
  have hnames : contents.hasNames = names.isSome := Bool.eq_iff_iff.2 hplaced₆.isSome_iff.symm
  refine ⟨⟨b₁, types, b₃, code.map CodeUnit.words, b₅, names⟩, ?_, ?_, ?_⟩
  · rw [cutPrototype, bind_of_ok (taken_of_ok hsizes hspans₁), bind_of_ok htake₂,
      bind_of_ok (taken_of_ok hlength hspans₃), bind_of_ok hcode,
      bind_of_ok (taken_of_ok hcontents hspans₅), bind_of_ok htake₆]
    rfl
  · exact hspans₁.trans (hspans₂.trans (hspans₃.trans (hspans₄.trans (hspans₅.trans hspans₆))))
  · subst htotal
    exact
      { position := rfl
        sizes := hreads₁
        types := hplaced₂
        length := hreads₃
        code := by rw [show InstructionWords.recode id = id from rfl, List.map_id]
        units := hunits
        contents := by
          rw [← hnames]
          exact hreads₅
        names := by
          rw [← hnames]
          exact hplaced₆ }

/-- With words that are decoded back to what they were, and with other complete blocks, the parts
make the same prototype. -/
theorem PrototypeParts.Spells.respell (h : q.Spells id version strings index p)
    (hdecode : ∀ w, decode (f w) = w) (hq : q.Respells f q') :
    q'.Spells decode version strings index p := by
  obtain ⟨sizes, types, length, code, contents, names⟩ := q
  obtain ⟨sizes', types', length', code', contents', names'⟩ := q'
  obtain ⟨htypes, hnames, hothers⟩ := hq
  cases hothers
  have hrecode : InstructionWords.recode decode ∘ InstructionWords.recode f = id :=
    funext fun w => Prod.ext (hdecode w.1) rfl
  have hcontents := h.contents
  have hplaced := h.names
  rw [hnames.isSome_eq] at hcontents hplaced
  exact
    { position := h.position
      sizes := h.sizes
      types := h.types.replaced htypes
      length := h.length
      code := by rw [List.map_map, hrecode]; exact h.code
      units := h.units
      contents := hcontents
      names := hplaced.replaced hnames }

end Prototype

end ScriptMachine
