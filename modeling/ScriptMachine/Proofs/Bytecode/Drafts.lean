import ScriptMachine.Proofs.Bytecode.Fields

/-!
# Drafts and what they were made for

A draft is made by calls of the assembler.  Beside it stands its source, which only notes what the
calls have asked for: strings themselves and not their numbers, arguments and not words.  After any
calls the draft represents its source.
-/

namespace ScriptMachine

/-! ## Sources -/

/-- A constant as it is asked for. -/
inductive SourceConstant where
  /-- Nil. -/
  | nil
  /-- A truth value. -/
  | boolean (b : Bool)
  /-- A number. -/
  | number (n : Float)
  /-- A string. -/
  | string (s : Bytes)
  /-- A path of globals, packed. -/
  | importPath (id : UInt32)
  /-- The shape of a table. -/
  | table (keys : List UInt32)
  /-- A closure. -/
  | closure (index : UInt32)
  /-- A vector. -/
  | vector (v : Vector4)

namespace SourceConstant

/-- The string that a constant is. -/
def string? : SourceConstant → Option Bytes
  | string s => some s
  | _ => none

/-- The constant of a draft, given the number of the string that it may be. -/
def draft (number : UInt32) : SourceConstant → DraftConstant
  | nil => .nil
  | boolean b => .boolean b
  | .number n => .number n
  | string _ => .string number
  | importPath id => .importPath id
  | table keys => .table keys
  | closure index => .closure index
  | vector v => .vector v

end SourceConstant

/-- A prototype as it is asked for. -/
structure SourcePrototype where
  /-- Count of registers. -/
  maxStackSize : UInt8 := 0
  /-- Count of parameters. -/
  numParams : UInt8 := 0
  /-- Count of upvalues. -/
  numUpvalues : UInt8 := 0
  /-- Whether it takes extra arguments. -/
  isVararg : Bool := false
  /-- The line on which it begins. -/
  lineDefined : UInt32 := 0
  /-- Its name. -/
  name : Option Bytes := none
  /-- The line of what is emitted next. -/
  line : Int32 := 0
  /-- Whether a line has been given. -/
  hasLines : Bool := false
  /-- What has been emitted, each with its line. -/
  code : List (Emission × Int32) := []
  /-- Its constants. -/
  constants : List SourceConstant := []
  /-- Its children. -/
  children : List UInt32 := []

/-- A module as it is asked for. -/
structure SourceModule where
  /-- Its prototypes. -/
  prototypes : List SourcePrototype := []
  /-- The prototype that runs first. -/
  main : UInt32 := 0

/-! ## Calls -/

/-- A call of the assembler that changes a prototype. -/
inductive PrototypeCall where
  /-- The count of parameters, and whether there may be more. -/
  | params (count : UInt8) (isVararg : Bool)
  /-- The count of registers. -/
  | maxStack (count : UInt8)
  /-- The count of upvalues. -/
  | upvalues (count : UInt8)
  /-- The name. -/
  | name (s : Bytes)
  /-- The line on which the prototype begins. -/
  | lineDefined (line : UInt32)
  /-- The line of what is emitted from now on. -/
  | line (line : Int32)
  /-- Emits into one slot. -/
  | emit (emission : Emission)
  /-- Emits an instruction and its auxiliary word. -/
  | emitWithAux (emission : Emission) (aux : UInt32)
  /-- Makes the jump at a slot, with a 16-bit operand, lead to another one. -/
  | patchD (slot target : UInt32)
  /-- Makes the jump at a slot, with a 24-bit operand, lead to another one. -/
  | patchE (slot target : UInt32)
  /-- One more constant. -/
  | constant (c : SourceConstant)
  /-- One more child. -/
  | child (index : UInt32)

/-- A call of the assembler. -/
inductive ModuleCall where
  /-- One more prototype. -/
  | prototype
  /-- A string among the strings of the module. -/
  | string (s : Bytes)
  /-- The prototype that runs first. -/
  | main (index : UInt32)
  /-- A call that changes a prototype. -/
  | change (index : Nat) (call : PrototypeCall)

/-! ## What calls ask for -/

namespace SourcePrototype

/-- The source once something has been emitted on the line of the moment. -/
def emit (p : SourcePrototype) (emission : Emission) : SourcePrototype :=
  { p with code := p.code ++ [(emission, p.line)] }

/-- The source with what was emitted into a slot replaced. -/
def replace (p : SourcePrototype) (slot : Nat) (f : Emission → Emission) : SourcePrototype :=
  { p with code := p.code.modify slot fun entry => (f entry.1, entry.2) }

/-- The source after a call. -/
def after (p : SourcePrototype) : PrototypeCall → SourcePrototype
  | .params count isVararg => { p with numParams := count, isVararg }
  | .maxStack count => { p with maxStackSize := count }
  | .upvalues count => { p with numUpvalues := count }
  | .name s => { p with name := some s }
  | .lineDefined line => { p with lineDefined := line }
  | .line line => { p with line, hasLines := true }
  | .emit emission => p.emit emission
  | .emitWithAux emission aux => (p.emit emission).emit (.aux aux)
  | .patchD slot target =>
    let d := (target - (slot + 1)).toInt32
    if d.toInt < -2 ^ 15 ∨ 2 ^ 15 ≤ d.toInt then p
    else p.replace slot.toNat (Emission.withD d.toInt16)
  | .patchE slot target => p.replace slot.toNat (Emission.withE (target - (slot + 1)).toInt32)
  | .constant c => { p with constants := p.constants ++ [c] }
  | .child index => { p with children := p.children ++ [index] }

end SourcePrototype

namespace SourceModule

/-- The source after a call. -/
def after (m : SourceModule) : ModuleCall → SourceModule
  | .prototype => { m with prototypes := m.prototypes ++ [{}] }
  | .string _ => m
  | .main index => { m with main := index }
  | .change index call => { m with prototypes := m.prototypes.modify index (·.after call) }

/-- The source that calls have asked for. -/
def of (calls : List ModuleCall) : SourceModule := calls.foldl after {}

end SourceModule

/-! ## What calls do -/

namespace ModuleDraft

/-- The draft after a call that changes a prototype, which is given by its position. -/
def afterChange (m : ModuleDraft) (index : Nat) (p : PrototypeDraft) : PrototypeCall → ModuleDraft
  | .params count isVararg => m.setPrototype index { p with numParams := count, isVararg }
  | .maxStack count => m.setPrototype index { p with maxStackSize := count }
  | .upvalues count => m.setPrototype index { p with numUpvalues := count }
  | .name s =>
    let (number, m) := m.intern s
    m.setPrototype index { p with name := number.toUInt32 }
  | .lineDefined line => m.setPrototype index { p with lineDefined := line }
  | .line line => m.setPrototype index { p with line, hasLines := true }
  | .emit emission => m.setPrototype index (p.push emission.word).2
  | .emitWithAux emission aux => m.setPrototype index (p.pushWithAux emission.word aux).2
  | .patchD slot target => m.setPrototype index ((p.patchD slot target).toOption.getD p)
  | .patchE slot target => m.setPrototype index ((p.patchE slot target).toOption.getD p)
  | .constant c =>
    match c.string? with
    | some s =>
      let (number, m) := m.intern s
      m.setPrototype index (p.addConstant (c.draft number.toUInt32)).2
    | none => m.setPrototype index (p.addConstant (c.draft 0)).2
  | .child i => m.setPrototype index (p.addChild i).2

/-- The draft after a call.  A call that fails, because its prototype is not there or a jump is out
of range, changes nothing. -/
def after (m : ModuleDraft) : ModuleCall → ModuleDraft
  | .prototype => m.addPrototype.2
  | .string s => (m.intern s).2
  | .main index => { m with main := index }
  | .change index call =>
    match m.prototypes[index]? with
    | none => m
    | some p => m.afterChange index p call

/-- The draft that calls have made. -/
def of (calls : List ModuleCall) : ModuleDraft := calls.foldl after {}

end ModuleDraft

/-! ## Drafts represent their sources -/

/-- A number stands for a string of the module, counted from one. -/
def Numbers (strings : Array Bytes) (number : UInt32) (s : Bytes) : Prop :=
  ∃ i, strings[i]? = some s ∧ number = (i + 1).toUInt32

/-- A constant of a draft represents what was asked for. -/
def SourceConstant.Represents (strings : Array Bytes) (c : SourceConstant) (d : DraftConstant) :
    Prop :=
  ∃ number, d = c.draft number ∧ ∀ s, c.string? = some s → Numbers strings number s

/-- A prototype of a draft represents what was asked for. -/
structure SourcePrototype.Represents (strings : Array Bytes) (p : SourcePrototype)
    (d : PrototypeDraft) : Prop where
  /-- The count of registers is the same. -/
  maxStackSize : d.maxStackSize = p.maxStackSize
  /-- The count of parameters is the same. -/
  numParams : d.numParams = p.numParams
  /-- The count of upvalues is the same. -/
  numUpvalues : d.numUpvalues = p.numUpvalues
  /-- It takes extra arguments if it was asked to. -/
  isVararg : d.isVararg = p.isVararg
  /-- The line on which it begins is the same. -/
  lineDefined : d.lineDefined = p.lineDefined
  /-- The line of what is emitted next is the same. -/
  line : d.line = p.line
  /-- A line has been given if one was. -/
  hasLines : d.hasLines = p.hasLines
  /-- The number of the name stands for it, and zero for none. -/
  name : match p.name with
    | none => d.name = 0
    | some s => Numbers strings d.name s
  /-- The words are those of what was emitted. -/
  words : d.words.toList = p.code.map fun entry => (entry.1.word, entry.2)
  /-- The constants represent those that were asked for. -/
  constants : List.Forall₂ (SourceConstant.Represents strings) p.constants d.constants.toList
  /-- The children are the same. -/
  children : d.children.toList = p.children

/-- A draft represents what was asked for. -/
structure SourceModule.Represents (m : SourceModule) (d : ModuleDraft) : Prop where
  /-- The main prototype is the same. -/
  main : d.main = m.main
  /-- The prototypes represent those that were asked for. -/
  prototypes : List.Forall₂ (SourcePrototype.Represents d.strings) m.prototypes
    d.prototypes.toList

/-! ## Strings only become more -/

/-- All strings keep their numbers. -/
def Extends (strings strings' : Array Bytes) : Prop :=
  ∀ (i : Nat) s, strings[i]? = some s → strings'[i]? = some s

section Growth

variable {strings strings' : Array Bytes}

theorem Numbers.mono {number : UInt32} {s : Bytes} (h : Numbers strings number s)
    (hext : Extends strings strings') : Numbers strings' number s := by
  obtain ⟨i, hi, hnumber⟩ := h
  exact ⟨i, hext i s hi, hnumber⟩

theorem SourceConstant.Represents.mono {c : SourceConstant} {d : DraftConstant}
    (h : c.Represents strings d) (hext : Extends strings strings') : c.Represents strings' d := by
  obtain ⟨number, hd, hs⟩ := h
  exact ⟨number, hd, fun s hc => (hs s hc).mono hext⟩

theorem SourcePrototype.Represents.mono {p : SourcePrototype} {d : PrototypeDraft}
    (h : p.Represents strings d) (hext : Extends strings strings') : p.Represents strings' d := by
  have hname := h.name
  have hname' : match p.name with
      | none => d.name = 0
      | some s => Numbers strings' d.name s := by
    split
    · rename_i hnone
      rwa [hnone] at hname
    · rename_i s hsome
      rw [hsome] at hname
      exact hname.mono hext
  exact { h with name := hname', constants := h.constants.imp fun _ _ hc => hc.mono hext }

end Growth

theorem ModuleDraft.extends_intern (m : ModuleDraft) (s : Bytes) :
    Extends m.strings (m.intern s).2.strings := by
  intro i t ht
  rw [intern]
  split
  · exact ht
  · have hi := (Array.getElem?_eq_some_iff.1 ht).1
    rw [Array.getElem?_push, if_neg (by omega), ht]

theorem ModuleDraft.numbers_intern (m : ModuleDraft) (s : Bytes) :
    Numbers (m.intern s).2.strings (m.intern s).1.toUInt32 s := by
  rw [intern]
  split
  · rename_i i hi
    refine ⟨i, ?_, rfl⟩
    rw [Array.idxOf?_eq_map_finIdxOf?_val, Option.map_eq_some_iff] at hi
    obtain ⟨k, hk, rfl⟩ := hi
    have hs : m.strings[k] = s := (Array.finIdxOf?_eq_some_iff.1 hk).1
    rw [Array.getElem?_eq_getElem k.isLt]
    exact congrArg some hs
  · exact ⟨m.strings.size, by simp, rfl⟩

theorem ModuleDraft.prototypes_intern (m : ModuleDraft) (s : Bytes) :
    (m.intern s).2.prototypes = m.prototypes ∧ (m.intern s).2.main = m.main := by
  rw [intern]
  split <;> exact ⟨rfl, rfl⟩

/-! ## Every call keeps the representation -/

theorem forall₂_modify_set {α β : Type} {R : α → β → Prop} {f : α → α} {b b' : β} {as : List α}
    {bs : List β} (h : List.Forall₂ R as bs) :
    ∀ i : Nat, bs[i]? = some b → (∀ a, R a b → R (f a) b') →
      List.Forall₂ R (as.modify i f) (bs.set i b') := by
  induction h with
  | nil => intro i hb; cases hb
  | @cons a c as bs hac hrest ih =>
    intro i hb hstep
    cases i with
    | zero =>
      cases hb
      exact .cons (hstep a hac) hrest
    | succ i => exact .cons hac (ih i hb hstep)

namespace SourcePrototype.Represents

variable {strings : Array Bytes} {p : SourcePrototype} {d : PrototypeDraft}

theorem emit (h : p.Represents strings d) (emission : Emission) :
    (p.emit emission).Represents strings (d.push emission.word).2 := by
  refine { h with words := ?_ }
  rw [PrototypeDraft.push, SourcePrototype.emit, Array.toList_push, h.words, h.line, List.map_append]
  rfl

/-- A word that is replaced as what was emitted into its slot. -/
theorem replace (h : p.Represents strings d) {slot : Nat} {f : Emission → Emission}
    {g : UInt32 → UInt32} (hf : ∀ emission, (f emission).word = g emission.word) :
    (p.replace slot f).Represents strings ((d.setWord slot g).toOption.getD d) := by
  have hcode : (p.replace slot f).code.map (fun entry => (entry.1.word, entry.2)) =
      d.words.toList.modify slot fun entry => (g entry.1, entry.2) := by
    rw [h.words, SourcePrototype.replace]
    apply List.ext_getElem?
    intro i
    rw [List.getElem?_map, List.getElem?_modify, List.getElem?_modify, List.getElem?_map]
    rcases p.code[i]? with _ | entry
    · rfl
    · by_cases hi : slot = i
      · simp only [hi, if_true, Option.map_eq_map, Option.map_some, hf]
      · simp only [hi, if_false, Option.map_eq_map, Option.map_some]
  rw [PrototypeDraft.setWord]
  split
  · refine { h with words := ?_ }
    rw [hcode]
    exact Array.toList_modify
  · rename_i hslot
    refine { h with words := ?_ }
    rw [hcode, List.modify_eq_self (by simpa using hslot)]
    rfl

theorem patchD (h : p.Represents strings d) (slot target : UInt32) :
    (p.after (.patchD slot target)).Represents strings
      ((d.patchD slot target).toOption.getD d) := by
  rw [SourcePrototype.after, PrototypeDraft.patchD, PrototypeDraft.distance]
  split
  · exact h
  · rename_i hrange
    rw [not_or, Int.not_lt, Int.not_le] at hrange
    refine h.replace fun emission => ?_
    have hd : ((target - (slot + 1)).toInt32.toInt16).toInt = (target - (slot + 1)).toInt32.toInt := by
      rw [Int32.toInt_toInt16]
      exact Int.bmod_eq_of_le_mul_two (by omega) (by omega)
    rw [Emission.word_withD, hd]

theorem patchE (h : p.Represents strings d) (slot target : UInt32) :
    (p.after (.patchE slot target)).Represents strings
      ((d.patchE slot target).toOption.getD d) :=
  h.replace fun emission => Emission.word_withE _ emission

theorem constant {c : SourceConstant} {number : UInt32} (h : p.Represents strings d)
    (hc : ∀ s, c.string? = some s → Numbers strings number s) :
    (p.after (.constant c)).Represents strings (d.addConstant (c.draft number)).2 := by
  refine { h with constants := ?_ }
  rw [PrototypeDraft.addConstant, SourcePrototype.after, Array.toList_push]
  exact List.rel_append h.constants (.cons ⟨number, rfl, hc⟩ .nil)

theorem child (h : p.Represents strings d) (index : UInt32) :
    (p.after (.child index)).Represents strings (d.addChild index).2 := by
  refine { h with children := ?_ }
  rw [PrototypeDraft.addChild, SourcePrototype.after, Array.toList_push, h.children]

end SourcePrototype.Represents

namespace SourceModule.Represents

variable {m : SourceModule} {d d' : ModuleDraft}

/-- A call changes one prototype, after the strings may have become more. -/
theorem set (h : m.Represents d) {index : Nat} {p p' : PrototypeDraft}
    {f : SourcePrototype → SourcePrototype} (hp : d.prototypes[index]? = some p)
    (hext : Extends d.strings d'.strings) (hsame : d'.prototypes = d.prototypes)
    (hmain : d'.main = d.main)
    (hstep : ∀ s, s.Represents d'.strings p → (f s).Represents d'.strings p') :
    ({ m with prototypes := m.prototypes.modify index f } : SourceModule).Represents
      (d'.setPrototype index p') := by
  refine ⟨hmain.trans h.main, ?_⟩
  have hmono : List.Forall₂ (SourcePrototype.Represents d'.strings) m.prototypes
      d.prototypes.toList := h.prototypes.imp fun _ _ hs => hs.mono hext
  rw [← Array.getElem?_toList] at hp
  rw [ModuleDraft.setPrototype, hsame, Array.toList_setIfInBounds]
  exact forall₂_modify_set hmono index hp hstep

theorem afterChange (h : m.Represents d) {index : Nat} {p : PrototypeDraft}
    (hp : d.prototypes[index]? = some p) (call : PrototypeCall) :
    (m.after (.change index call)).Represents (d.afterChange index p call) := by
  have hset : ∀ {p' : PrototypeDraft}, (∀ s : SourcePrototype, s.Represents d.strings p →
      (s.after call).Represents d.strings p') →
      (m.after (.change index call)).Represents (d.setPrototype index p') :=
    fun hstep => h.set hp (fun _ _ ht => ht) rfl rfl hstep
  have hintern : ∀ {p' : PrototypeDraft} (t : Bytes),
      (∀ s : SourcePrototype, s.Represents (d.intern t).2.strings p →
        (s.after call).Represents (d.intern t).2.strings p') →
      (m.after (.change index call)).Represents ((d.intern t).2.setPrototype index p') :=
    fun t hstep => h.set hp (d.extends_intern t) (d.prototypes_intern t).1
      (d.prototypes_intern t).2 hstep
  cases call with
  | params count isVararg =>
    exact hset fun s hs => { hs with numParams := rfl, isVararg := rfl }
  | maxStack count => exact hset fun s hs => { hs with maxStackSize := rfl }
  | upvalues count => exact hset fun s hs => { hs with numUpvalues := rfl }
  | name t => exact hintern t fun s hs => { hs with name := d.numbers_intern t }
  | lineDefined line => exact hset fun s hs => { hs with lineDefined := rfl }
  | line line => exact hset fun s hs => { hs with line := rfl, hasLines := rfl }
  | emit emission => exact hset fun s hs => hs.emit emission
  | emitWithAux emission aux => exact hset fun s hs => (hs.emit emission).emit (.aux aux)
  | patchD slot target => exact hset fun s hs => hs.patchD slot target
  | patchE slot target => exact hset fun s hs => hs.patchE slot target
  | constant c =>
    rw [ModuleDraft.afterChange]
    split
    · rename_i t ht
      refine hintern t fun s hs => hs.constant fun t' ht' => ?_
      obtain rfl : t = t' := Option.some.inj (ht.symm.trans ht')
      exact d.numbers_intern t
    · rename_i hnone
      refine hset fun s hs => hs.constant fun t ht => ?_
      rw [hnone] at ht
      cases ht
  | child i => exact hset fun s hs => hs.child i

/-- Every call keeps the representation. -/
theorem after (h : m.Represents d) (call : ModuleCall) :
    (m.after call).Represents (d.after call) := by
  cases call with
  | prototype =>
    refine ⟨h.main, ?_⟩
    rw [ModuleDraft.after, ModuleDraft.addPrototype, Array.toList_push]
    refine List.rel_append h.prototypes (.cons ?_ .nil)
    exact ⟨rfl, rfl, rfl, rfl, rfl, rfl, rfl, rfl, rfl, .nil, rfl⟩
  | string s =>
    refine ⟨(d.prototypes_intern s).2.trans h.main, ?_⟩
    rw [ModuleDraft.after, (d.prototypes_intern s).1]
    exact h.prototypes.imp fun _ _ hp => hp.mono (d.extends_intern s)
  | main index => exact ⟨rfl, h.prototypes⟩
  | change index call =>
    rw [ModuleDraft.after]
    rcases hp : d.prototypes[index]? with _ | p
    · have hlength := h.prototypes.length_eq
      have hmissing : m.prototypes.length ≤ index := by
        rw [hlength]
        simpa using hp
      rw [SourceModule.after, List.modify_eq_self hmissing]
      exact h
    · exact h.afterChange hp call

end SourceModule.Represents

/-- What calls of the assembler make represents what they have asked for. -/
theorem SourceModule.represents_of (calls : List ModuleCall) :
    (SourceModule.of calls).Represents (ModuleDraft.of calls) := by
  have hrun : ∀ (m : SourceModule) (d : ModuleDraft), m.Represents d →
      (calls.foldl SourceModule.after m).Represents (calls.foldl ModuleDraft.after d) := by
    induction calls with
    | nil => exact fun _ _ h => h
    | cons call calls ih => exact fun m d h => ih _ _ (h.after call)
  exact hrun {} {} ⟨rfl, .nil⟩

end ScriptMachine
