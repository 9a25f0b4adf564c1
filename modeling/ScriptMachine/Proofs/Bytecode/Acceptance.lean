import Mathlib
import ScriptMachine.Proofs.Bytecode.Lines

/-!
# What accepted bytes say

Whatever the bytes are, an image that was read from them is sound: its words are instructions with
the auxiliary words that belong to them, every reference in it leads somewhere, and there is a line
for every slot.  Its code is as long as the bytes declare: the declaration can be read off the bytes
without looking at the code.
-/

namespace ScriptMachine

/-! ## Readers that succeed -/

namespace Reader

/-- When the reader succeeds at a cursor, its result and the cursor behind it are as said. -/
def Ensures {α : Type} (r : Reader α) (c : Cursor) (P : α → Cursor → Prop) : Prop :=
  ∀ a c', r c = .ok a c' → P a c'

section Steps

variable {α β : Type} {r : Reader α} {f : α → Reader β} {c : Cursor} {P : β → Cursor → Prop}

/-- A sequence succeeds only when its steps do, one after the other. -/
theorem Ensures.bind (h : ∀ a c₁, r c = .ok a c₁ → Ensures (f a) c₁ P) :
    Ensures (r >>= f) c P := by
  intro b c' hrun
  change EStateM.bind r f c = _ at hrun
  rw [EStateM.bind] at hrun
  split at hrun
  · rename_i a c₁ hr
    exact h a c₁ hr b c' hrun
  · cases hrun

theorem bind_of_ok {a : α} {c₁ : Cursor} (h : r c = .ok a c₁) : (r >>= f) c = f a c₁ := by
  change EStateM.bind r f c = _
  rw [EStateM.bind, h]

theorem Ensures.mono {Q : β → Cursor → Prop} {x : Reader β} (h : Ensures x c Q)
    (hQ : ∀ b c', Q b c' → P b c') : Ensures x c P :=
  fun b c' hrun => hQ b c' (h b c' hrun)

theorem Ensures.pure {b : β} (h : P b c) : Ensures (Pure.pure b) c P := by
  intro b' c' hrun
  cases hrun
  exact h

theorem Ensures.corrupt {corruption : Corruption} : Ensures (Reader.corrupt corruption) c P := by
  intro b c' hrun
  cases hrun

/-- What a check lets pass satisfies its opposite. -/
theorem Ensures.unless {p : Prop} [Decidable p] {corruption : Corruption} {x : Reader β}
    (h : ¬ p → Ensures x c P) :
    Ensures (if p then Reader.corrupt corruption >>= f else x) c P := by
  split
  · exact .bind fun _ _ hrun => nomatch hrun
  · rename_i hp
    exact h hp

/-- A byte that is read stands at the front of what is left. -/
theorem ensures_byte (c : Cursor) : Ensures byte c fun b c' =>
    ∃ position rest, c = ⟨position, b :: rest⟩ ∧ c' = ⟨position + 1, rest⟩ := by
  intro b c' hrun
  obtain ⟨position, rest⟩ := c
  cases rest with
  | nil => cases hrun
  | cons first rest =>
    cases hrun
    exact ⟨position, rest, rfl, rfl⟩

theorem ensures_replicate (step : Reader α) (count : Nat) (c : Cursor) :
    Ensures (replicate step count) c fun items _ => items.length = count := by
  induction count generalizing c with
  | zero => exact .pure rfl
  | succ count ih =>
    refine .bind fun first c₁ _ => .bind fun others c₂ hothers => .pure ?_
    rw [List.length_cons, ih c₁ others c₂ hothers]

end Steps

/-- What a reader would give, the cursor staying where it is. -/
def ahead {α : Type} (r : Reader α) : Reader α := fun c =>
  match r c with
  | .ok a _ => .ok a c
  | .error e c' => .error e c'

theorem ahead_of_ok {α : Type} {r : Reader α} {a : α} {c c' : Cursor} (h : r c = .ok a c') :
    ahead r c = .ok a c := by
  rw [ahead, h]

end Reader

open Reader

/-! ## Code -/

/-- The unit is an instruction: its operation is the one that its word numbers, and an auxiliary
word follows exactly when the operation has one. -/
structure CodeUnit.Sound (u : CodeUnit) : Prop where
  /-- The operation is the one that the word numbers. -/
  opcode : Opcode.ofNat? (Word.opcodeNumber u.word) = some u.opcode
  /-- An auxiliary word follows exactly when the operation has one. -/
  aux : u.aux.isSome = u.opcode.info.hasAux

/-- Count of the slots that some units take in the code. -/
def CodeUnit.totalSize (units : List CodeUnit) : Nat := (units.map CodeUnit.size).sum

theorem CodeUnit.totalSize_cons (u : CodeUnit) (units : List CodeUnit) :
    totalSize (u :: units) = u.size + totalSize units := rfl

namespace Image

variable {decode : UInt32 → UInt32} {version : UInt8} {strings : List Bytes}

/-- Code that is read fills the slots that were left for it, whatever instructions it is made of. -/
theorem ensures_readCode (index size left : Nat) (c : Cursor) :
    Ensures (readCode decode index size left) c fun units _ =>
      (∀ u ∈ units, u.Sound) ∧ CodeUnit.totalSize units = left := by
  -- An instruction with an auxiliary word takes two of the slots that are left.
  induction left using Nat.strong_induction_on generalizing c with
  | _ left ih =>
    cases left with
    | zero => exact .pure ⟨fun u hu => absurd hu List.not_mem_nil, rfl⟩
    | succ left =>
      rw [readCode]
      refine .bind fun word c₁ _ => ?_
      extract_lets word
      split
      · exact fun _ _ hrun => nomatch hrun
      · rename_i opcode hopcode
        split
        · rename_i haux
          refine .bind fun aux c₂ _ => ?_
          cases left with
          | zero => exact .corrupt
          | succ left =>
            refine .bind fun others c₃ hothers => .pure ?_
            obtain ⟨hsound, hsize⟩ := ih left (by omega) c₂ others c₃ hothers
            refine ⟨List.forall_mem_cons.2 ⟨⟨hopcode, haux.symm⟩, hsound⟩, ?_⟩
            rw [CodeUnit.totalSize_cons, hsize]
            exact Nat.add_comm 2 left
        · rename_i haux
          refine .bind fun others c₂ hothers => .pure ?_
          obtain ⟨hsound, hsize⟩ := ih left (by omega) c₁ others c₂ hothers
          rw [Bool.not_eq_true] at haux
          refine ⟨List.forall_mem_cons.2 ⟨⟨hopcode, haux.symm⟩, hsound⟩, ?_⟩
          rw [CodeUnit.totalSize_cons, hsize]
          exact Nat.add_comm 1 left

/-! ## References and lines -/

theorem ensures_checkReferences (index count : Nat) (references : List Int) (c : Cursor) :
    Ensures (checkReferences index count references) c fun _ _ =>
      ∀ r ∈ references, 0 ≤ r ∧ r < count := by
  induction references with
  | nil => exact .pure fun r hr => absurd hr List.not_mem_nil
  | cons reference others ih =>
    rw [checkReferences]
    split
    · rename_i hreference
      exact fun _ c' hothers => List.forall_mem_cons.2 ⟨hreference, ih _ c' hothers⟩
    · exact .corrupt

theorem length_runningSums {α : Type} [Add α] (start : α) (steps : List α) :
    (runningSums start steps).length = steps.length := by
  induction steps generalizing start with
  | nil => rfl
  | cons step steps ih => rw [runningSums, List.length_cons, ih, List.length_cons]

/-- There is a line for every slot. -/
theorem ensures_readLines (size : Nat) (c : Cursor) :
    Ensures (readLines size) c fun lines _ => lines.size = size := by
  refine .bind fun gapLog2 c₁ _ => ?_
  split
  · exact .corrupt
  · refine .bind fun offsets c₂ hoffsets => .bind fun bases c₃ _ => .pure ?_
    rw [size_combineLines, length_runningSums, ensures_replicate byte size c₁ offsets c₂ hoffsets]

end Image

/-! ## Prototypes -/

/-- Count of the slots of a prototype's code. -/
def PrototypeImage.codeSize (p : PrototypeImage) : Nat := CodeUnit.totalSize p.code

/-- The code of the prototype is made of instructions that refer to constants it has, and its lines,
if known, are those of its slots. -/
structure PrototypeImage.Sound (p : PrototypeImage) : Prop where
  /-- The code is made of instructions. -/
  units : ∀ u ∈ p.code, u.Sound
  /-- The constants that they refer to are there. -/
  references : ∀ u ∈ p.code, ∀ r ∈ u.references, 0 ≤ r ∧ r < p.constants.length
  /-- Every slot has a line, and nothing else has one. -/
  lines : ∀ lines, p.lines = some lines → lines.size = p.codeSize

namespace Image

/-- The count of slots that a prototype declares for its code: behind four bytes, and in later
versions behind another one and the type annotations. -/
def declaredSize (version : UInt8) : Reader Nat := do
  skip 4
  if 4 ≤ version then
    skip 1
    skipTypes
  varint

/-- The counts that prototypes one after the other declare. -/
def declaredSizes (decode : UInt32 → UInt32) (version : UInt8) (strings : List Bytes) :
    Nat → Nat → Reader (List Nat)
  | 0, _ => pure []
  | count + 1, index => do
    let size ← ahead (declaredSize version)
    let _ ← readPrototype decode version strings index
    let others ← declaredSizes decode version strings count (index + 1)
    return size :: others

/-- The prototype is sound, and its code is as long as is declared at a cursor. -/
def SoundPrototype (version : UInt8) (c : Cursor) (p : PrototypeImage) : Prop :=
  p.Sound ∧ ∃ c', declaredSize version c = .ok p.codeSize c'

variable {decode : UInt32 → UInt32} {version : UInt8} {strings : List Bytes}

section Declaration

variable {a₁ a₂ a₃ : UInt8} {a₄ : Bool} {c c₁ c₂ c₃ c₄ : Cursor}

/-- Three bytes and a truth value take four bytes. -/
theorem skip_four (h₁ : byte c = .ok a₁ c₁) (h₂ : byte c₁ = .ok a₂ c₂) (h₃ : byte c₂ = .ok a₃ c₃)
    (h₄ : flag c₃ = .ok a₄ c₄) : skip 4 c = .ok () c₄ := by
  obtain ⟨position, rest, rfl, rfl⟩ := ensures_byte c a₁ c₁ h₁
  obtain ⟨_, rest, hcursor, rfl⟩ := ensures_byte _ a₂ c₂ h₂
  cases hcursor
  obtain ⟨_, rest, hcursor, rfl⟩ := ensures_byte _ a₃ c₃ h₃
  cases hcursor
  cases rest with
  | nil => cases h₄
  | cons first rest =>
    cases h₄
    rfl

theorem skip_one {a : UInt8} (h : byte c = .ok a c₁) : skip 1 c = .ok () c₁ := by
  obtain ⟨position, rest, rfl, rfl⟩ := ensures_byte c a c₁ h
  rfl

/-- The declaration of the code's size stands behind the bytes and the type annotations. -/
theorem declaredSize_of_typed {c₅ c₆ : Cursor} {flags : UInt8} (hversion : 4 ≤ version)
    (hskip : skip 4 c = .ok () c₄) (hflags : byte c₄ = .ok flags c₅)
    (htypes : skipTypes c₅ = .ok () c₆) : declaredSize version c = varint c₆ := by
  rw [declaredSize, bind_of_ok hskip, if_pos hversion, bind_of_ok (skip_one hflags),
    bind_of_ok htypes]

theorem declaredSize_of_untyped (hversion : ¬ 4 ≤ version) (hskip : skip 4 c = .ok () c₄) :
    declaredSize version c = varint c₄ := by
  rw [declaredSize, bind_of_ok hskip, if_neg hversion]

end Declaration

/-- A prototype that is read is sound, and its code is as long as it declares. -/
theorem ensures_readPrototype (index : Nat) (c : Cursor) :
    Ensures (readPrototype decode version strings index) c fun p _ =>
      SoundPrototype version c p := by
  refine .bind fun maxStackSize c₁ h₁ => .bind fun numParams c₂ h₂ =>
    .bind fun numUpvalues c₃ h₃ => .bind fun isVararg c₄ h₄ => ?_
  extract_lets body
  have hskip := skip_four h₁ h₂ h₃ h₄
  have hbody : ∀ flags c₅, declaredSize version c = varint c₅ →
      Ensures (body flags) c₅ fun p _ => SoundPrototype version c p := by
    intro flags c₅ hdeclared
    refine .bind fun size c₆ hsize => .bind fun code c₇ hcode => .bind fun constants c₈ _ =>
      .bind fun _ c₉ hreferences => .bind fun children c₁₀ _ => .bind fun lineDefined c₁₁ _ =>
      .bind fun name c₁₂ _ => .bind fun hasLines c₁₃ _ => ?_
    extract_lets finish
    obtain ⟨hunits, htotal⟩ := ensures_readCode index size size c₆ code c₇ hcode
    have hrange := ensures_checkReferences index constants.length _ c₈ () c₉ hreferences
    have hfinish : ∀ lines c₁₄, (∀ ls, lines = some ls → ls.size = size) →
        Ensures (finish lines) c₁₄ fun p _ => SoundPrototype version c p := by
      intro lines c₁₄ hlines
      have hsound : PrototypeImage.Sound
          ⟨⟨index, maxStackSize, numParams, numUpvalues, isVararg, flags, children, lineDefined,
            name, lines⟩, code, constants⟩ :=
        { units := hunits
          references := fun u hu r hr => hrange r (List.mem_flatMap.2 ⟨u, hu, hr⟩)
          lines := fun ls hls => (hlines ls hls).trans htotal.symm }
      have hsize' : declaredSize version c = .ok (CodeUnit.totalSize code) c₆ := by
        rw [hdeclared, hsize, htotal]
      refine .bind fun hasNames c₁₅ _ => ?_
      split
      · exact .bind fun _ c₁₆ _ => .pure ⟨hsound, c₆, hsize'⟩
      · exact .pure ⟨hsound, c₆, hsize'⟩
    split
    · have hlines : Ensures (do return some (← readLines size)) c₁₃ fun lines _ =>
          ∀ ls, lines = some ls → ls.size = size := by
        refine .bind fun ls c₁₄ hls => .pure ?_
        rintro _ ⟨⟩
        exact ensures_readLines size c₁₃ ls c₁₄ hls
      exact .bind fun lines c₁₄ hread => hfinish lines c₁₄ (hlines lines c₁₄ hread)
    · exact hfinish none c₁₃ nofun
  split
  · rename_i hversion
    refine .bind fun flags c₅ hflags => .bind fun _ c₆ htypes => ?_
    exact hbody flags c₆ (declaredSize_of_typed hversion hskip hflags htypes)
  · rename_i hversion
    exact hbody 0 c₄ (declaredSize_of_untyped hversion hskip)

/-- Prototypes that are read one after the other are as many as were asked for, and sound, and their
codes are as long as they declare. -/
theorem ensures_readPrototypes (count index : Nat) (c : Cursor) :
    Ensures (readPrototypes decode version strings count index) c fun ps c' =>
      ps.length = count ∧ (∀ p ∈ ps, p.Sound) ∧
        declaredSizes decode version strings count index c =
          .ok (ps.map PrototypeImage.codeSize) c' := by
  induction count generalizing index c with
  | zero => exact .pure ⟨rfl, fun p hp => absurd hp List.not_mem_nil, rfl⟩
  | succ count ih =>
    refine .bind fun first c₁ hfirst => .bind fun others c₂ hothers => .pure ?_
    obtain ⟨hsound, c₃, hdeclared⟩ := ensures_readPrototype index c first c₁ hfirst
    obtain ⟨hlength, hall, hsizes⟩ := ih (index + 1) c₁ others c₂ hothers
    refine ⟨by rw [List.length_cons, hlength], List.forall_mem_cons.2 ⟨hsound, hall⟩, ?_⟩
    rw [declaredSizes, bind_of_ok (ahead_of_ok hdeclared), bind_of_ok hfirst, bind_of_ok hsizes]
    rfl

end Image

/-! ## Modules -/

/-- The prototypes are sound, and every reference to a prototype leads to one of them. -/
structure Image.Sound (image : Image) : Prop where
  /-- The prototypes are sound. -/
  prototypes : ∀ p ∈ image.prototypes, p.Sound
  /-- The children are there. -/
  children : ∀ p ∈ image.prototypes, ∀ child ∈ p.children, child < image.prototypes.length
  /-- The prototypes of closure constants are there. -/
  closures : ∀ p ∈ image.prototypes, ∀ i, .closure i ∈ p.constants → i < image.prototypes.length
  /-- The main prototype is there. -/
  main : image.main < image.prototypes.length

namespace Image

variable {decode : UInt32 → UInt32}

/-- The counts of slots that the prototypes of a module declare for their codes, from its strings
on. -/
def declarationsFrom (decode : UInt32 → UInt32) (version typesVersion : UInt8) :
    Reader (List Nat) := do
  let strings ← counted string
  if typesVersion = 3 then skipTypeNames (← get).remaining.succ
  declaredSizes decode version strings (← varint) 0

/-- The counts of slots that the prototypes of a module declare for their codes. -/
def declarations (decode : UInt32 → UInt32) : Reader (List Nat) := do
  let version ← byte
  let typesVersion ← if 4 ≤ version then byte else pure 0
  declarationsFrom decode version typesVersion

/-- The counts of slots that a byte string declares for the codes of its prototypes. -/
def readDeclarations (decode : UInt32 → UInt32) (bytes : Bytes) : Except LoadError (List Nat) :=
  match declarations decode (.ofBytes bytes) with
  | .ok sizes _ => .ok sizes
  | .error e _ => .error e

/-- The image is sound, and the codes of its prototypes are as long as a reader declares at a
cursor. -/
def SoundAs (declared : Reader (List Nat)) (c : Cursor) (image : Image) : Prop :=
  image.Sound ∧ ∃ c', declared c = .ok (image.prototypes.map PrototypeImage.codeSize) c'

/-- What is read before the declarations does not matter to them. -/
theorem SoundAs.of_eq {declared declared' : Reader (List Nat)} {c c' : Cursor} {image : Image}
    (h : declared c = declared' c') (hsound : image.SoundAs declared' c') :
    image.SoundAs declared c := by
  obtain ⟨himage, c₁, hdeclared⟩ := hsound
  exact ⟨himage, c₁, h.trans hdeclared⟩

/-- What does not depend on names is the same once the main prototype has been named. -/
theorem map_nameMain {α : Type} {g : PrototypeImage → α}
    (hg : ∀ p : PrototypeImage, g { p with name := mainName } = g p) (main : Nat)
    (ps : List PrototypeImage) : (nameMain main ps).map g = ps.map g := by
  refine List.ext_getElem? fun i => ?_
  rw [nameMain, List.getElem?_map, List.getElem?_map, List.getElem?_modify]
  cases ps[i]? with
  | none => rfl
  | some p =>
    simp only [Option.map_eq_map, Option.map_some]
    split
    · rw [hg]
    · rfl

/-- Once the main prototype has been named, the prototypes are those that there were, but for
names. -/
theorem exists_of_mem_nameMain {main : Nat} {ps : List PrototypeImage} {p : PrototypeImage}
    (h : p ∈ nameMain main ps) : ∃ q ∈ ps, p = { q with name := p.name } := by
  have hmap := List.mem_map_of_mem (f := fun p : PrototypeImage => { p with name := [] }) h
  rw [map_nameMain (fun _ => rfl)] at hmap
  obtain ⟨q, hq, hqp⟩ := List.mem_map.1 hmap
  exact ⟨q, hq, (congrArg (fun r : PrototypeImage => { r with name := p.name }) hqp).symm⟩

theorem missingPrototype?_eq_none {count : Nat} {p : PrototypeImage}
    (h : missingPrototype? count p = none) :
    (∀ child ∈ p.children, child < count) ∧ ∀ i, .closure i ∈ p.constants → i < count := by
  rw [missingPrototype?] at h
  split at h
  · cases h
  · rename_i hchildren
    rw [List.find?_eq_none] at hchildren
    rw [List.findSome?_eq_none_iff] at h
    refine ⟨fun child hchild => ?_, fun i hi => ?_⟩
    · simpa using hchildren child hchild
    · simpa using h (.closure i) hi

section Reader

variable {version typesVersion : UInt8} {strings : List Bytes}

/-- Prototypes that refer to each other, and a main one among them, make a sound image. -/
theorem sound_of_prototypes {main : Nat} {ps : List PrototypeImage}
    (hsound : ∀ p ∈ ps, p.Sound) (hmissing : ps.findSome? (missingPrototype? ps.length) = none)
    (hmain : main < ps.length) :
    Sound ⟨version, typesVersion, strings, nameMain main ps, main⟩ := by
  have hlength : (nameMain main ps).length = ps.length := List.length_modify ..
  have hreferences : ∀ p ∈ ps, (∀ child ∈ p.children, child < ps.length) ∧
      ∀ i, .closure i ∈ p.constants → i < ps.length := by
    rw [List.findSome?_eq_none_iff] at hmissing
    exact fun p hp => missingPrototype?_eq_none (hmissing p hp)
  refine ⟨fun p hp => ?_, fun p hp => ?_, fun p hp => ?_, ?_⟩
  · obtain ⟨q, hq, heq⟩ := exists_of_mem_nameMain hp
    obtain ⟨hunits, hrange, hlines⟩ := hsound q hq
    rw [heq]
    exact ⟨hunits, hrange, hlines⟩
  · obtain ⟨q, hq, heq⟩ := exists_of_mem_nameMain hp
    rw [heq, hlength]
    exact (hreferences q hq).1
  · obtain ⟨q, hq, heq⟩ := exists_of_mem_nameMain hp
    rw [heq, hlength]
    exact (hreferences q hq).2
  · rw [hlength]
    exact hmain

/-- An image that is read is sound, and the codes of its prototypes are as long as declared. -/
theorem ensures_reader (c : Cursor) :
    Ensures (reader decode) c fun image _ => image.SoundAs (declarations decode) c := by
  refine .bind fun version c₁ hversion => ?_
  extract_lets body typed checked
  have hbody : ∀ typesVersion c₂, Ensures (body typesVersion) c₂ fun image _ =>
      image.SoundAs (declarationsFrom decode version typesVersion) c₂ := by
    intro typesVersion c₂
    refine .bind fun strings c₃ hstrings => ?_
    extract_lets prototypes
    have hprototypes : ∀ c₄, Ensures (prototypes ()) c₄ fun image _ =>
        image.SoundAs (do declaredSizes decode version strings (← varint) 0) c₄ := by
      intro c₄
      refine .bind fun count c₅ hcount => .bind fun ps c₆ hps => ?_
      obtain ⟨hlength, hsound, hsizes⟩ := ensures_readPrototypes count 0 c₅ ps c₆ hps
      extract_lets root
      split
      · exact .bind fun _ _ hrun => nomatch hrun
      · rename_i hmissing
        subst hlength
        refine .bind fun main c₇ _ => ?_
        extract_lets finish
        refine .unless fun hmain => .bind fun c₈ c₉ _ => ?_
        extract_lets left
        have hmain := Nat.not_le.1 hmain
        refine .unless fun _ => .pure ⟨sound_of_prototypes hsound hmissing hmain, c₆, ?_⟩
        rw [bind_of_ok hcount, hsizes, map_nameMain fun _ => rfl]
    split
    · rename_i htypes
      refine .bind fun c₄ c₅ hget => .bind fun _ c₆ hskip => ?_
      refine (hprototypes c₆).mono fun image _ => SoundAs.of_eq ?_
      rw [declarationsFrom, bind_of_ok hstrings, if_pos htypes, bind_of_ok hget, bind_of_ok hskip]
    · rename_i htypes
      refine (hprototypes c₃).mono fun image _ => SoundAs.of_eq ?_
      rw [declarationsFrom, bind_of_ok hstrings, if_neg htypes]
  have htyped : Ensures (typed ()) c₁ fun image _ => image.SoundAs (declarations decode) c := by
    simp only [typed]
    split
    · rename_i hfour
      refine .bind fun typesVersion c₂ htypes => ?_
      refine (hbody typesVersion c₂).mono fun image _ => SoundAs.of_eq ?_
      rw [declarations, bind_of_ok hversion, if_pos hfour, bind_of_ok htypes]
    · rename_i hfour
      refine (hbody 0 c₁).mono fun image _ => SoundAs.of_eq ?_
      rw [declarations, bind_of_ok hversion, if_neg hfour]
      rfl
  exact .unless fun _ => .unless fun _ => htyped

end Reader

end Image

end ScriptMachine
