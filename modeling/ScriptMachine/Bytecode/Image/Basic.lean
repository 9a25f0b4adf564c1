import ScriptMachine.Bytecode.Constant
import ScriptMachine.Bytecode.Word

/-!
# Module images

An image is what a byte string says about a module, before the host's options have been applied
to it: a table of strings and a list of prototypes, each with its code, its constants, its
children and its lines.
-/

namespace ScriptMachine

/-! ## Code -/

/-- An instruction as it stands in the code, with its auxiliary word if it has one. -/
structure CodeUnit where
  /-- The operation. -/
  opcode : Opcode
  /-- The instruction word. -/
  word : UInt32
  /-- The auxiliary word. -/
  aux : Option UInt32
deriving DecidableEq

namespace CodeUnit

/-- Count of the slots that an instruction takes in the code. -/
def size (u : CodeUnit) : Nat := if u.aux.isSome then 2 else 1

/-- The operands of the instruction. -/
def operands (u : CodeUnit) : Operands := u.opcode.info.operands.operands u.word

/-- The auxiliary word, zero when there is none. -/
def auxWord (u : CodeUnit) : UInt32 := u.aux.getD 0

/-- The references to constants that an instruction makes, in the order of their checking. -/
def references (u : CodeUnit) : List Int :=
  match u.opcode.info.constant with
  | .none | .auxFlag | .auxCount => []
  | .aux => [u.auxWord.toNat]
  | .b => [u.operands.b]
  | .c => [u.operands.c]
  | .d => [u.operands.d]
  | .auxIndex => [AuxWord.index u.auxWord]
  | .auxImport =>
    let (first, second, third) := AuxWord.pathIndices u.auxWord
    match AuxWord.pathLength u.auxWord with
    | 0 | 1 => [first]
    | 2 => [first, second]
    | _ => [first, second, third]

end CodeUnit

/-! ## Prototypes and modules -/

/-- What a prototype says about itself apart from code and constants. -/
structure PrototypeHeader where
  /-- Position in the module. -/
  index : Nat
  /-- Count of registers. -/
  maxStackSize : UInt8
  /-- Count of parameters. -/
  numParams : UInt8
  /-- Count of upvalues. -/
  numUpvalues : UInt8
  /-- Whether it takes extra arguments. -/
  isVararg : Bool
  /-- Flags of the compiler. -/
  flags : UInt8
  /-- The prototypes of its inner functions. -/
  children : List Nat
  /-- The line on which it begins. -/
  lineDefined : Nat
  /-- Its name in messages. -/
  name : Bytes
  /-- The line of every slot of its code, if known. -/
  lines : Option (Array Int)
deriving DecidableEq

/-- The line of a slot, zero when it is not known. -/
def PrototypeHeader.lineAt (p : PrototypeHeader) (slot : Nat) : Int :=
  match p.lines with
  | some lines => lines.getD slot 0
  | none => 0

/-- A prototype of an image. -/
structure PrototypeImage extends PrototypeHeader where
  /-- Its code. -/
  code : List CodeUnit
  /-- Its constants. -/
  constants : List Constant
deriving DecidableEq

/-- What a byte string says about a module. -/
structure Image where
  /-- The version of the format. -/
  version : UInt8
  /-- The version of the type annotations. -/
  typesVersion : UInt8
  /-- The strings. -/
  strings : List Bytes
  /-- The prototypes. -/
  prototypes : List PrototypeImage
  /-- The prototype that runs first. -/
  main : Nat
deriving DecidableEq

end ScriptMachine
