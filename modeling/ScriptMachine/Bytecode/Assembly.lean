import ScriptMachine.Bytecode.Constant
import ScriptMachine.Bytecode.Word

/-!
# Assembling modules

A draft of a module grows by one string, prototype, word or constant at a time, and is written out
in the format that images are read from.  Instruction words are written as they are given: nothing
checks that they make sense, so that drafts can also be made of bytes that are not a module.
-/

namespace ScriptMachine

/-! ## Bytes of numbers -/

namespace Encode

/-- The bytes of a number, least significant first. -/
def littleEndian : Nat → Nat → Bytes
  | 0, _ => []
  | count + 1, n => (n % 256).toUInt8 :: littleEndian count (n / 256)

/-- A word as four bytes. -/
def word (w : UInt32) : Bytes := littleEndian 4 w.toNat

/-- A single as four bytes. -/
def single (x : Float32) : Bytes := word x.toBits

/-- A double as eight bytes. -/
def double (x : Float) : Bytes := littleEndian 8 x.toBits.toNat

/-- A number in groups of seven bits, low group first, the high bit of a byte saying that another
one follows. -/
def varint (n : Nat) : Bytes :=
  if n < 128 then [n.toUInt8] else (n % 128 + 128).toUInt8 :: varint (n / 128)

/-- A truth value as a byte. -/
def flag (b : Bool) : Bytes := [if b then 1 else 0]

/-- A count and the encodings of as many items. -/
def counted {α : Type} (encode : α → Bytes) (items : List α) : Bytes :=
  varint items.length ++ items.flatMap encode

end Encode

/-! ## Drafts -/

/-- A constant of a draft; strings are given by their number, counted from one. -/
inductive DraftConstant where
  /-- Nil. -/
  | nil
  /-- A truth value. -/
  | boolean (b : Bool)
  /-- A number. -/
  | number (n : Float)
  /-- A string. -/
  | string (number : UInt32)
  /-- A path of globals, packed. -/
  | importPath (id : UInt32)
  /-- The shape of a table. -/
  | table (keys : List UInt32)
  /-- A closure. -/
  | closure (index : UInt32)
  /-- A vector. -/
  | vector (v : Vector4)
deriving DecidableEq

/-- A prototype of a draft. -/
structure PrototypeDraft where
  /-- Count of registers. -/
  maxStackSize : UInt8 := 0
  /-- Count of parameters. -/
  numParams : UInt8 := 0
  /-- Count of upvalues. -/
  numUpvalues : UInt8 := 0
  /-- Whether it takes extra arguments. -/
  isVararg : Bool := false
  /-- The line on which it begins. -/
  lineDefined : UInt32 := 0
  /-- The number of its name, zero for none. -/
  name : UInt32 := 0
  /-- The line of the words to come. -/
  line : Int32 := 0
  /-- Whether a line has been given. -/
  hasLines : Bool := false
  /-- Its words, each with its line. -/
  words : Array (UInt32 × Int32) := #[]
  /-- Its constants. -/
  constants : Array DraftConstant := #[]
  /-- Its children. -/
  children : Array UInt32 := #[]

/-- Why a draft cannot be changed as asked. -/
inductive DraftError where
  /-- A jump that is too far for its operand. -/
  | jumpRange (slot target : UInt32)
  /-- A prototype or word that is not there. -/
  | missing
deriving DecidableEq

/-- The message of a draft error; something missing has none. -/
def DraftError.message? : DraftError → Option Bytes
  | .jumpRange slot target => some <| Bytes.concat
    [.ofString "jump from ", .ofNat slot.toNat, .ofString " to ", .ofNat target.toNat,
      .ofString " does not fit in D"]
  | .missing => none

namespace PrototypeDraft

/-! ## Words -/

/-- The draft with one more word, and its slot. -/
def push (p : PrototypeDraft) (word : UInt32) : Nat × PrototypeDraft :=
  (p.words.size, { p with words := p.words.push (word, p.line) })

/-- A word without operands. -/
def plainWord (opcode : UInt8) : UInt32 := opcode.toUInt32

/-- A word with three byte operands. -/
def abcWord (opcode a b c : UInt8) : UInt32 :=
  (opcode.toNat + a.toNat * 2 ^ 8 + b.toNat * 2 ^ 16 + c.toNat * 2 ^ 24).toUInt32

/-- A word with a byte operand and a signed one, which is cut to 16 bits. -/
def adWord (opcode a : UInt8) (d : Int) : UInt32 :=
  (opcode.toNat + a.toNat * 2 ^ 8 + (d % 2 ^ 16).toNat * 2 ^ 16).toUInt32

/-- A word with a signed operand, which is cut to 24 bits. -/
def aeWord (opcode : UInt8) (e : Int) : UInt32 :=
  (opcode.toNat + (e % 2 ^ 24).toNat * 2 ^ 8).toUInt32

/-- The draft with an instruction and its auxiliary word, and the slot of the instruction. -/
def pushWithAux (p : PrototypeDraft) (word aux : UInt32) : Nat × PrototypeDraft :=
  let (slot, p) := p.push word
  (slot, (p.push aux).2)

/-- The draft with another word at a slot. -/
def setWord (p : PrototypeDraft) (slot : Nat) (f : UInt32 → UInt32) :
    Except DraftError PrototypeDraft :=
  if slot < p.words.size then
    .ok { p with words := p.words.modify slot fun entry => (f entry.1, entry.2) }
  else .error .missing

/-- The distance from behind a slot to another one, in signed 32 bits. -/
def distance (slot target : UInt32) : Int := (target - (slot + 1)).toInt32.toInt

/-- A word with another signed 16-bit operand. -/
def withD (d : Int) (w : UInt32) : UInt32 :=
  (w.toNat % 2 ^ 16 + (d % 2 ^ 16).toNat * 2 ^ 16).toUInt32

/-- A word with another signed 24-bit operand. -/
def withE (e : Int) (w : UInt32) : UInt32 :=
  (w.toNat % 2 ^ 8 + (e % 2 ^ 24).toNat * 2 ^ 8).toUInt32

/-- The draft in which the jump at a slot, with a 16-bit operand, leads to another one; a distance
that the operand cannot hold is refused. -/
def patchD (p : PrototypeDraft) (slot target : UInt32) : Except DraftError PrototypeDraft :=
  let d := distance slot target
  if d < -2 ^ 15 ∨ 2 ^ 15 ≤ d then .error (.jumpRange slot target)
  else p.setWord slot.toNat (withD d)

/-- The draft in which the jump at a slot, with a 24-bit operand, leads to another one. -/
def patchE (p : PrototypeDraft) (slot target : UInt32) : Except DraftError PrototypeDraft :=
  p.setWord slot.toNat (withE (distance slot target))

/-! ## Constants and children -/

/-- The draft with one more constant, and its position. -/
def addConstant (p : PrototypeDraft) (constant : DraftConstant) : Nat × PrototypeDraft :=
  (p.constants.size, { p with constants := p.constants.push constant })

/-- The draft with one more child, and its position. -/
def addChild (p : PrototypeDraft) (index : UInt32) : Nat × PrototypeDraft :=
  (p.children.size, { p with children := p.children.push index })

/-- The packed path of one to three constants.  Indices are not cut to their fields. -/
def importId (indices : List UInt32) : UInt32 :=
  let field (i : Nat) (shift : UInt32) : UInt32 := indices.getD i 0 <<< shift
  (indices.length.toUInt32 <<< 30) ||| field 0 20 ||| field 1 10 ||| field 2 0

/-! ## Writing -/

/-- The bytes of a constant. -/
def encodeConstant : DraftConstant → Bytes
  | .nil => [0]
  | .boolean b => 1 :: Encode.flag b
  | .number n => 2 :: Encode.double n
  | .string number => 3 :: Encode.varint number.toNat
  | .importPath id => 4 :: Encode.word id
  | .table keys => 5 :: Encode.counted (fun key => Encode.varint key.toNat) keys
  | .closure index => 6 :: Encode.varint index.toNat
  | .vector v => 7 :: v.toList.flatMap Encode.single

/-- The steps from line to line, in 32 bits. -/
def lineSteps (last : Int32) : List Int32 → List UInt32
  | [] => []
  | line :: lines => (line - last).toUInt32 :: lineSteps line lines

/-- The line information: an interval of its own for every word, so that all offsets are zero. -/
def encodeLines (lines : List Int32) : Bytes :=
  0 :: (List.replicate lines.length 0 ++ (lineSteps 0 lines).flatMap Encode.word)

/-- The bytes of a prototype in a version of the format. -/
def encode (version : UInt8) (p : PrototypeDraft) : Bytes :=
  let words := p.words.toList
  [p.maxStackSize, p.numParams, p.numUpvalues] ++ Encode.flag p.isVararg ++
    (if 4 ≤ version then 0 :: Encode.varint 0 else []) ++
    Encode.counted (fun entry => Encode.word entry.1) words ++
    Encode.counted encodeConstant p.constants.toList ++
    Encode.counted (fun child => Encode.varint child.toNat) p.children.toList ++
    Encode.varint p.lineDefined.toNat ++ Encode.varint p.name.toNat ++
    Encode.flag p.hasLines ++ (if p.hasLines then encodeLines (words.map (·.2)) else []) ++ [0]

end PrototypeDraft

/-- A module of the assembler. -/
structure ModuleDraft where
  /-- Its prototypes. -/
  prototypes : Array PrototypeDraft := #[]
  /-- Its strings, each of them once. -/
  strings : Array Bytes := #[]
  /-- The prototype that runs first. -/
  main : UInt32 := 0

namespace ModuleDraft

/-- The draft with one more prototype, and its position. -/
def addPrototype (m : ModuleDraft) : Nat × ModuleDraft :=
  (m.prototypes.size, { m with prototypes := m.prototypes.push {} })

/-- The number of a string, counted from one, and the draft with it among its strings. -/
def intern (m : ModuleDraft) (s : Bytes) : Nat × ModuleDraft :=
  match m.strings.idxOf? s with
  | some i => (i + 1, m)
  | none => (m.strings.size + 1, { m with strings := m.strings.push s })

/-- The draft with a prototype changed. -/
def setPrototype (m : ModuleDraft) (index : Nat) (p : PrototypeDraft) : ModuleDraft :=
  { m with prototypes := m.prototypes.setIfInBounds index p }

/-- The bytes of a string. -/
def encodeString (s : Bytes) : Bytes := Encode.varint s.length ++ s

/-- The bytes of the module in a version of the format and of its type annotations. -/
def serialize (m : ModuleDraft) (version typesVersion : UInt8) : Bytes :=
  version :: (if 4 ≤ version then [typesVersion] else []) ++
    Encode.counted encodeString m.strings.toList ++
    (if 4 ≤ version ∧ typesVersion = 3 then [0] else []) ++
    Encode.counted (PrototypeDraft.encode version) m.prototypes.toList ++
    Encode.varint m.main.toNat

end ModuleDraft

end ScriptMachine
