import ScriptMachine.Bytecode.Image.Reader

/-!
# Rounds of reading

Numbers in the bytes of a module say how often the loops of its reader are to go round.  A *metered*
reader takes the same steps as the reader of a module and counts the rounds that its loops begin:
those that read, those that pass over the slot of an auxiliary word, and those that go once more
over what has been read.  A single number is read in a few rounds of its own, five at most, which
are not counted.
-/

namespace ScriptMachine

/-- A cursor, and a count of the rounds that loops have begun. -/
structure Meter extends Cursor where
  /-- Count of the rounds. -/
  rounds : Nat

/-- A step of reading that counts the rounds of its loops. -/
abbrev Metered (α : Type) := EStateM LoadError Meter α

namespace Metered

open Reader (byte flag word single double varint string take corrupt)

variable {α β : Type}

/-! ## Steps and loops -/

/-- A reader without loops. -/
def plain (r : Reader α) : Metered α := fun s =>
  match r s.toCursor with
  | .ok a c => .ok a ⟨c, s.rounds⟩
  | .error e c => .error e ⟨c, s.rounds⟩

/-- Counts rounds of a loop as begun. -/
def rounds (count : Nat) : Metered Unit := fun s => .ok () { s with rounds := s.rounds + count }

/-- As many results of a step as asked for, each in a round. -/
def replicate (step : Metered α) : Nat → Metered (List α)
  | 0 => pure []
  | count + 1 => do
    rounds 1
    let first ← step
    let others ← replicate step count
    return first :: others

/-- A count and as many results of a step. -/
def counted (step : Metered α) : Metered (List α) := do replicate step (← plain varint)

/-- What is first found in a list, looking at an item in a round. -/
def search (find : α → Option β) : List α → Metered (Option β)
  | [] => pure none
  | a :: others => do
    rounds 1
    match find a with
    | some b => return some b
    | none => search find others

/-! ## Parts of a prototype -/

/-- The code of a prototype.  The slot of an auxiliary word, which has been read with its
instruction, is passed over in a round. -/
def readCode (decode : UInt32 → UInt32) (index size : Nat) : Nat → Metered (List CodeUnit)
  | 0 => pure []
  | left + 1 => do
    rounds 1
    let word := decode (← plain word)
    match Opcode.ofNat? (Word.opcodeNumber word) with
    | none => throw (.unsupportedOpcode (Word.opcodeNumber word) (size - (left + 1)) index)
    | some opcode =>
      if opcode.info.hasAux then
        let aux ← plain Reader.word
        match left with
        | 0 => plain (corrupt (.auxOverrun index size))
        | left + 1 =>
          rounds 1
          return ⟨opcode, word, some aux⟩ :: (← readCode decode index size left)
      else return ⟨opcode, word, none⟩ :: (← readCode decode index size left)

/-- A constant. -/
def readConstant (strings : List Bytes) : Metered Constant := do
  let kind ← plain byte
  match kind.toNat with
  | 0 => return .nil
  | 1 => return .boolean (← plain flag)
  | 2 => return .number (← plain double)
  | 3 =>
    let number ← plain varint
    if number = 0 then return .string none
    else return .string (some (← plain (Image.readStringAt strings number)))
  | 4 => return .importPath (← plain word)
  | 5 => return .table (← counted (plain varint))
  | 6 => return .closure (← plain varint)
  | 7 => return .vector (.vector ⟨← plain single, ← plain single, ← plain single, ← plain single⟩)
  | other => plain (corrupt (.constantKind other))

/-- Fails unless every reference of the code names one of `count` constants, going over the code
slot by slot. -/
def checkReferences (index count : Nat) : List CodeUnit → Metered Unit
  | [] => pure ()
  | u :: others => do
    rounds u.size
    plain (Image.checkReferences index count u.references)
    checkReferences index count others

/-- The lines of a code of some size, which are put together slot by slot. -/
def readLines (size : Nat) : Metered (Array Int) := do
  let gapLog2 ← plain byte
  if 31 < gapLog2 then plain (corrupt (.lineGap gapLog2.toNat))
  else
    let offsets ← replicate (plain byte) size
    let bases ← replicate (plain word) (Image.intervalCount size gapLog2.toNat)
    rounds offsets.length
    return Image.combineLines gapLog2.toNat (Image.runningSums 0 offsets)
      (Image.runningSums 0 bases).toArray

/-- The names of the host's types. -/
def skipTypeNames : Nat → Metered Unit
  | 0 => pure ()
  | fuel + 1 => do
    if (← plain byte) = 0 then return
    rounds 1
    let _ ← plain varint
    skipTypeNames fuel

/-- The names and ranges of a prototype's local variables and the names of its upvalues. -/
def skipNames : Metered Unit := do
  let _ ← counted do
    let _ ← plain varint
    let _ ← plain varint
    let _ ← plain varint
    let _ ← plain byte
  let _ ← counted (plain varint)

/-! ## Prototypes and modules -/

/-- A prototype. -/
def readPrototype (decode : UInt32 → UInt32) (version : UInt8) (strings : List Bytes)
    (index : Nat) : Metered PrototypeImage := do
  let maxStackSize ← plain byte
  let numParams ← plain byte
  let numUpvalues ← plain byte
  let isVararg ← plain flag
  let flags ← if 4 ≤ version then do
      let flags ← plain byte
      plain Image.skipTypes
      pure flags
    else pure 0
  let size ← plain varint
  let code ← readCode decode index size size
  let constants ← counted (readConstant strings)
  checkReferences index constants.length code
  let children ← counted (plain varint)
  let lineDefined ← plain varint
  let name ← plain (Image.readName strings)
  let lines ← if ← plain flag then (do return some (← readLines size)) else pure none
  if ← plain flag then skipNames
  return { index, maxStackSize, numParams, numUpvalues, isVararg, flags, children, lineDefined,
           name, lines, code, constants }

/-- Prototypes one after the other. -/
def readPrototypes (decode : UInt32 → UInt32) (version : UInt8) (strings : List Bytes) :
    Nat → Nat → Metered (List PrototypeImage)
  | 0, _ => pure []
  | count + 1, index => do
    rounds 1
    let first ← readPrototype decode version strings index
    let others ← readPrototypes decode version strings count (index + 1)
    return first :: others

/-- The first reference of prototypes that leads to none of `count` prototypes. -/
def findMissing (count : Nat) : List PrototypeImage → Metered (Option Corruption)
  | [] => pure none
  | p :: others => do
    rounds 1
    match ← search (fun child => if count ≤ child then some child else none) p.children with
    | some child => return some (.missingChild p.index child)
    | none =>
      let closure? : Constant → Option Corruption
        | .closure closure =>
          if count ≤ closure then some (.missingClosure p.index closure) else none
        | _ => none
      match ← search closure? p.constants with
      | some corruption => return some corruption
      | none => findMissing count others

/-- A module. -/
def reader (decode : UInt32 → UInt32) : Metered Image := do
  let version ← plain byte
  if version = 0 then plain (corrupt .compileError)
  if version.toNat < minVersion ∨ maxVersion < version.toNat then
    plain (corrupt (.version version.toNat))
  let typesVersion ← if 4 ≤ version then plain byte else pure 0
  let strings ← counted (plain string)
  if typesVersion = 3 then skipTypeNames (← plain get).remaining.succ
  let count ← plain varint
  let prototypes ← readPrototypes decode version strings count 0
  match ← findMissing count prototypes with
  | some corruption => plain (corrupt corruption)
  | none => pure ()
  let main ← plain varint
  if count ≤ main then plain (corrupt (.missingRoot main count))
  let left := (← plain get).remaining
  if left ≠ 0 then plain (corrupt (.trailing left))
  return { version, typesVersion, strings, prototypes := Image.nameMain main prototypes, main }

/-! ## Runs -/

/-- What has come of reading a byte string. -/
structure Account where
  /-- The image, or what is wrong. -/
  result : Except LoadError Image
  /-- Count of the rounds that were begun. -/
  rounds : Nat
  /-- Count of the bytes that were taken. -/
  taken : Nat

/-- Reads a byte string and keeps account. -/
def account (decode : UInt32 → UInt32) (bytes : Bytes) : Account :=
  match reader decode ⟨.ofBytes bytes, 0⟩ with
  | .ok image s => ⟨.ok image, s.rounds, bytes.length - s.remaining⟩
  | .error e s => ⟨.error e, s.rounds, bytes.length - s.remaining⟩

end Metered

end ScriptMachine
