import ScriptMachine.Bytecode.Cursor
import ScriptMachine.Bytecode.Image.Basic

/-!
# Reading images

The bytes of a module are read front to back, and every reference is checked: strings when they
are met, constants at the end of a prototype's list of them, prototypes at the end of the module.
Nothing may follow the module.  What execution has no use for, such as type annotations and the
names of local variables, is passed over.
-/

namespace ScriptMachine

namespace Image

open Reader

/-! ## Code -/

/-- The code of a prototype, from a slot up to its end.  Instruction words, but not auxiliary
words, first go through `decode`. -/
def readCode (decode : UInt32 → UInt32) (index size : Nat) : Nat → Reader (List CodeUnit)
  | 0 => pure []
  | left + 1 => do
    let word := decode (← word)
    match Opcode.ofNat? (Word.opcodeNumber word) with
    | none => throw (.unsupportedOpcode (Word.opcodeNumber word) (size - (left + 1)) index)
    | some opcode =>
      if opcode.info.hasAux then
        let aux ← Reader.word
        match left with
        | 0 => corrupt (.auxOverrun index size)
        | left + 1 => return ⟨opcode, word, some aux⟩ :: (← readCode decode index size left)
      else return ⟨opcode, word, none⟩ :: (← readCode decode index size left)

/-! ## Constants -/

/-- The string with a number, counted from one. -/
def readStringAt (strings : List Bytes) (number : Nat) : Reader Bytes :=
  match number, strings[number - 1]? with
  | _ + 1, some s => pure s
  | _, _ => corrupt (.stringRange number)

/-- A constant. -/
def readConstant (strings : List Bytes) : Reader Constant := do
  let kind ← byte
  match kind.toNat with
  | 0 => return .nil
  | 1 => return .boolean (← flag)
  | 2 => return .number (← double)
  | 3 =>
    let number ← varint
    if number = 0 then return .string none
    else return .string (some (← readStringAt strings number))
  | 4 => return .importPath (← word)
  | 5 => return .table (← counted varint)
  | 6 => return .closure (← varint)
  | 7 => return .vector (.vector ⟨← single, ← single, ← single, ← single⟩)
  | other => corrupt (.constantKind other)

/-- Fails unless every reference names one of `count` constants. -/
def checkReferences (index count : Nat) : List Int → Reader Unit
  | [] => pure ()
  | reference :: others =>
    if 0 ≤ reference ∧ reference < count then checkReferences index count others
    else corrupt (.constantRange reference index count)

/-! ## Lines -/

/-- The sums of the leading steps, in the arithmetic of their type. -/
def runningSums {α : Type} [Add α] (start : α) : List α → List α
  | [] => []
  | step :: steps => (start + step) :: runningSums (start + step) steps

/-- Count of the line entries for a code of some size. -/
def intervalCount (size gapLog2 : Nat) : Nat :=
  if size = 0 then 0 else (size - 1) / 2 ^ gapLog2 + 1

/-- The line of every slot: the base line of its interval and its own offset, in 32 bits. -/
def combineLines (gapLog2 : Nat) (offsets : List UInt8) (bases : Array UInt32) : Array Int :=
  (offsets.zipIdx.map fun (offset, slot) =>
    let line := bases.getD (slot / 2 ^ gapLog2) 0 + offset.toUInt32
    Int.bmod line.toNat (2 ^ 32)).toArray

/-- The lines of a code of some size: a step from offset to offset for every slot, then a step
from base line to base line for every interval. -/
def readLines (size : Nat) : Reader (Array Int) := do
  let gapLog2 ← byte
  if 31 < gapLog2 then corrupt (.lineGap gapLog2.toNat)
  else
    let offsets ← replicate byte size
    let bases ← replicate word (intervalCount size gapLog2.toNat)
    return combineLines gapLog2.toNat (runningSums 0 offsets) (runningSums 0 bases).toArray

/-! ## Blocks that are passed over -/

/-- The type annotations of a prototype. -/
def skipTypes : Reader Unit := do skip (← varint)

/-- The names of the host's types: pairs of a byte that is not zero and a number. -/
def skipTypeNames : Nat → Reader Unit
  | 0 => pure ()
  | fuel + 1 => do
    if (← byte) = 0 then return
    let _ ← varint
    skipTypeNames fuel

/-- The names and ranges of a prototype's local variables and the names of its upvalues. -/
def skipNames : Reader Unit := do
  let _ ← counted do
    let _ ← varint
    let _ ← varint
    let _ ← varint
    let _ ← byte
  let _ ← counted varint

/-! ## Prototypes -/

/-- The name of a prototype that has none. -/
def unnamed : Bytes := .ofString "(??)"

/-- The name of the prototype that runs first. -/
def mainName : Bytes := .ofString "(main)"

/-- The name with a number, counted from one; zero stands for no name. -/
def readName (strings : List Bytes) : Reader Bytes := do
  let number ← varint
  if number = 0 then return unnamed else readStringAt strings number

/-- A prototype. -/
def readPrototype (decode : UInt32 → UInt32) (version : UInt8) (strings : List Bytes)
    (index : Nat) : Reader PrototypeImage := do
  let maxStackSize ← byte
  let numParams ← byte
  let numUpvalues ← byte
  let isVararg ← flag
  let flags ← if 4 ≤ version then do
      let flags ← byte
      skipTypes
      pure flags
    else pure 0
  let size ← varint
  let code ← readCode decode index size size
  let constants ← counted (readConstant strings)
  checkReferences index constants.length (code.flatMap CodeUnit.references)
  let children ← counted varint
  let lineDefined ← varint
  let name ← readName strings
  let lines ← if ← flag then (do return some (← readLines size)) else pure none
  if ← flag then skipNames
  return { index, maxStackSize, numParams, numUpvalues, isVararg, flags, children, lineDefined,
           name, lines, code, constants }

/-- Prototypes one after the other, the first of them with the given position. -/
def readPrototypes (decode : UInt32 → UInt32) (version : UInt8) (strings : List Bytes) :
    Nat → Nat → Reader (List PrototypeImage)
  | 0, _ => pure []
  | count + 1, index => do
    let first ← readPrototype decode version strings index
    let others ← readPrototypes decode version strings count (index + 1)
    return first :: others

/-! ## Modules -/

/-- The first reference of a prototype that leads to none of `count` prototypes: children come
before closure constants. -/
def missingPrototype? (count : Nat) (p : PrototypeImage) : Option Corruption :=
  match p.children.find? (count ≤ ·) with
  | some child => some (.missingChild p.index child)
  | none => p.constants.findSome? fun
    | .closure closure => if count ≤ closure then some (.missingClosure p.index closure) else none
    | _ => none

/-- The prototypes with the name of the main one replaced. -/
def nameMain (main : Nat) (prototypes : List PrototypeImage) : List PrototypeImage :=
  prototypes.modify main fun p => { p with name := mainName }

/-- A module. -/
def reader (decode : UInt32 → UInt32) : Reader Image := do
  let version ← byte
  if version = 0 then corrupt .compileError
  if version.toNat < minVersion ∨ maxVersion < version.toNat then
    corrupt (.version version.toNat)
  let typesVersion ← if 4 ≤ version then byte else pure 0
  let strings ← counted string
  if typesVersion = 3 then skipTypeNames (← get).remaining.succ
  let count ← varint
  let prototypes ← readPrototypes decode version strings count 0
  match prototypes.findSome? (missingPrototype? count) with
  | some corruption => corrupt corruption
  | none => pure ()
  let main ← varint
  if count ≤ main then corrupt (.missingRoot main count)
  let left := (← get).remaining
  if left ≠ 0 then corrupt (.trailing left)
  return { version, typesVersion, strings, prototypes := nameMain main prototypes, main }

/-- The image that a byte string holds. -/
def read (decode : UInt32 → UInt32) (bytes : Bytes) : Except LoadError Image :=
  match reader decode (.ofBytes bytes) with
  | .ok image _ => .ok image
  | .error e _ => .error e

end Image

end ScriptMachine
