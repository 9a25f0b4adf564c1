import ScriptMachine.Bytes

/-!
# Opcodes

The low byte of an instruction word numbers one of 83 operations.  For each one the table `info`
says how its name is written, which fields the rest of the word holds, whether a second word, the
*auxiliary word*, follows, and how the instruction refers to the constants of its prototype.
-/

namespace ScriptMachine

/-! ## Formats of instructions -/

/-- The operand fields of an instruction word, from its second byte on. -/
inductive OperandFormat where
  /-- No operands. -/
  | none
  /-- One byte. -/
  | a
  /-- Two bytes. -/
  | ab
  /-- Three bytes. -/
  | abc
  /-- One byte and a signed 16-bit number. -/
  | ad
  /-- A signed 24-bit number. -/
  | ae
deriving DecidableEq, Repr

/-- How an instruction refers to the constants of its prototype. -/
inductive ConstantFormat where
  /-- Not at all. -/
  | none
  /-- By its auxiliary word. -/
  | aux
  /-- By its third operand byte. -/
  | c
  /-- By its signed 16-bit operand. -/
  | d
  /-- By a path of up to three constants, packed into its auxiliary word. -/
  | auxImport
  /-- The constant is the low bit of its auxiliary word, whose high bit negates the test. -/
  | auxFlag
  /-- By the low 24 bits of its auxiliary word, whose high bit negates the test. -/
  | auxIndex
  /-- By its second operand byte. -/
  | b
  /-- The constant is the low four bits of its auxiliary word. -/
  | auxCount
deriving DecidableEq, Repr

/-! ## The operations -/

/-- The operations of the machine, in the order of their numbers. -/
inductive Opcode where
  /-- Does nothing. -/
  | nop
  /-- Stands in for an instruction with a breakpoint. -/
  | breakpoint
  /-- Nil into a register. -/
  | loadNil
  /-- A truth value into a register, with a short jump forward. -/
  | loadBoolean
  /-- A small integer into a register. -/
  | loadInteger
  /-- A constant into a register. -/
  | loadConstant
  /-- A register into a register. -/
  | move
  /-- A global into a register. -/
  | getGlobal
  /-- A register into a global. -/
  | setGlobal
  /-- An upvalue into a register. -/
  | getUpvalue
  /-- A register into an upvalue. -/
  | setUpvalue
  /-- Closes the upvalues from a register on. -/
  | closeUpvalues
  /-- The value at a path of globals into a register. -/
  | getImport
  /-- A field, its key in a register. -/
  | getTable
  /-- Stores a field, its key in a register. -/
  | setTable
  /-- A field, its key a constant. -/
  | getField
  /-- Stores a field, its key a constant. -/
  | setField
  /-- A field, its key a small integer. -/
  | getItem
  /-- Stores a field, its key a small integer. -/
  | setItem
  /-- A closure of a child prototype. -/
  | newClosure
  /-- Prepares a method call. -/
  | namecall
  /-- Calls a function. -/
  | call
  /-- Returns from the frame. -/
  | ret
  /-- Jumps. -/
  | jump
  /-- Jumps back, past the interrupt hook. -/
  | jumpBack
  /-- Jumps on a true register. -/
  | jumpIf
  /-- Jumps on a false register. -/
  | jumpIfNot
  /-- Jumps when two registers are equal. -/
  | jumpIfEqual
  /-- Jumps when a register is at most another. -/
  | jumpIfLessEqual
  /-- Jumps when a register is below another. -/
  | jumpIfLess
  /-- Jumps unless two registers are equal. -/
  | jumpIfNotEqual
  /-- Jumps unless a register is at most another. -/
  | jumpIfNotLessEqual
  /-- Jumps unless a register is below another. -/
  | jumpIfNotLess
  /-- Sum of registers. -/
  | add
  /-- Difference of registers. -/
  | sub
  /-- Product of registers. -/
  | mul
  /-- Quotient of registers. -/
  | div
  /-- Remainder of registers. -/
  | mod
  /-- Power of registers. -/
  | pow
  /-- Sum with a constant. -/
  | addConstant
  /-- Difference with a constant. -/
  | subConstant
  /-- Product with a constant. -/
  | mulConstant
  /-- Quotient with a constant. -/
  | divConstant
  /-- Remainder with a constant. -/
  | modConstant
  /-- Power with a constant. -/
  | powConstant
  /-- The second register if the first is true. -/
  | and
  /-- The second register unless the first is true. -/
  | or
  /-- The constant if the register is true. -/
  | andConstant
  /-- The constant unless the register is true. -/
  | orConstant
  /-- Concatenation of a range of registers. -/
  | concat
  /-- Negated truth of a register. -/
  | not
  /-- Negative of a register. -/
  | minus
  /-- Length of a register. -/
  | length
  /-- A new table. -/
  | newTable
  /-- A new table of a known shape. -/
  | dupTable
  /-- Stores a range of registers in a table. -/
  | setList
  /-- Starts a numeric loop. -/
  | numericPrep
  /-- Continues a numeric loop. -/
  | numericLoop
  /-- Continues a generic loop. -/
  | genericLoop
  /-- Starts a loop over an indexed iterator. -/
  | genericPrepIndexed
  /-- A hint, with a word of its own, that is passed over. -/
  | fastCall3
  /-- Starts a loop over a plain iterator. -/
  | genericPrepNext
  /-- Entry of compiled code; not supported. -/
  | nativeCall
  /-- Extra arguments into registers. -/
  | getVarargs
  /-- A closure of a constant prototype. -/
  | dupClosure
  /-- Marks a frame with extra arguments. -/
  | prepVarargs
  /-- A constant with a wide index into a register. -/
  | loadConstantExtended
  /-- A wide jump, past the interrupt hook. -/
  | jumpExtended
  /-- A hint that is passed over. -/
  | fastCall
  /-- Counts how often it runs. -/
  | coverage
  /-- Names a captured variable of the closure before it. -/
  | capture
  /-- Difference of a constant and a register. -/
  | subFromConstant
  /-- Quotient of a constant and a register. -/
  | divFromConstant
  /-- A hint that is passed over. -/
  | fastCall1
  /-- A hint, with a word of its own, that is passed over. -/
  | fastCall2
  /-- A hint, with a word of its own, that is passed over. -/
  | fastCall2Constant
  /-- Starts a generic loop. -/
  | genericPrep
  /-- Jumps on nil, or on anything else. -/
  | jumpIfNil
  /-- Jumps on a truth value, or on anything else. -/
  | jumpIfBoolean
  /-- Jumps on a number, or on anything else. -/
  | jumpIfNumber
  /-- Jumps on a string, or on anything else. -/
  | jumpIfString
  /-- Floor quotient of registers. -/
  | idiv
  /-- Floor quotient with a constant. -/
  | idivConstant
deriving DecidableEq, Repr

/-- What the table of operations says about one of them. -/
structure OpcodeInfo where
  /-- The name in messages and listings. -/
  name : String
  /-- The operand fields of the word. -/
  operands : OperandFormat
  /-- The reference to a constant. -/
  constant : ConstantFormat
  /-- Whether an auxiliary word follows. -/
  hasAux : Bool

namespace Opcode

/-- The operations in the order of their numbers. -/
def all : Array Opcode := #[
  .nop, .breakpoint, .loadNil, .loadBoolean, .loadInteger, .loadConstant, .move, .getGlobal,
  .setGlobal, .getUpvalue, .setUpvalue, .closeUpvalues, .getImport, .getTable, .setTable,
  .getField, .setField, .getItem, .setItem, .newClosure, .namecall, .call, .ret, .jump, .jumpBack,
  .jumpIf, .jumpIfNot, .jumpIfEqual, .jumpIfLessEqual, .jumpIfLess, .jumpIfNotEqual,
  .jumpIfNotLessEqual, .jumpIfNotLess, .add, .sub, .mul, .div, .mod, .pow, .addConstant,
  .subConstant, .mulConstant, .divConstant, .modConstant, .powConstant, .and, .or, .andConstant,
  .orConstant, .concat, .not, .minus, .length, .newTable, .dupTable, .setList, .numericPrep,
  .numericLoop, .genericLoop, .genericPrepIndexed, .fastCall3, .genericPrepNext, .nativeCall,
  .getVarargs, .dupClosure, .prepVarargs, .loadConstantExtended, .jumpExtended, .fastCall,
  .coverage, .capture, .subFromConstant, .divFromConstant, .fastCall1, .fastCall2,
  .fastCall2Constant, .genericPrep, .jumpIfNil, .jumpIfBoolean, .jumpIfNumber, .jumpIfString,
  .idiv, .idivConstant]

/-- The operation with a number. -/
def ofNat? (n : Nat) : Option Opcode := all[n]?

/-- The number of an operation. -/
def toNat (op : Opcode) : Nat := op.ctorIdx

/-- The table of operations. -/
def info : Opcode → OpcodeInfo
  | nop => ⟨"NOP", .none, .none, false⟩
  | breakpoint => ⟨"BREAK", .none, .none, false⟩
  | loadNil => ⟨"LOADNIL", .a, .none, false⟩
  | loadBoolean => ⟨"LOADB", .abc, .none, false⟩
  | loadInteger => ⟨"LOADN", .ad, .none, false⟩
  | loadConstant => ⟨"LOADK", .ad, .d, false⟩
  | move => ⟨"MOVE", .ab, .none, false⟩
  | getGlobal => ⟨"GETGLOBAL", .a, .aux, true⟩
  | setGlobal => ⟨"SETGLOBAL", .a, .aux, true⟩
  | getUpvalue => ⟨"GETUPVAL", .ab, .none, false⟩
  | setUpvalue => ⟨"SETUPVAL", .ab, .none, false⟩
  | closeUpvalues => ⟨"CLOSEUPVALS", .a, .none, false⟩
  | getImport => ⟨"GETIMPORT", .ad, .auxImport, true⟩
  | getTable => ⟨"GETTABLE", .abc, .none, false⟩
  | setTable => ⟨"SETTABLE", .abc, .none, false⟩
  | getField => ⟨"GETTABLEKS", .abc, .aux, true⟩
  | setField => ⟨"SETTABLEKS", .abc, .aux, true⟩
  | getItem => ⟨"GETTABLEN", .abc, .none, false⟩
  | setItem => ⟨"SETTABLEN", .abc, .none, false⟩
  | newClosure => ⟨"NEWCLOSURE", .ad, .none, false⟩
  | namecall => ⟨"NAMECALL", .abc, .aux, true⟩
  | call => ⟨"CALL", .abc, .none, false⟩
  | ret => ⟨"RETURN", .ab, .none, false⟩
  | jump => ⟨"JUMP", .ad, .none, false⟩
  | jumpBack => ⟨"JUMPBACK", .ad, .none, false⟩
  | jumpIf => ⟨"JUMPIF", .ad, .none, false⟩
  | jumpIfNot => ⟨"JUMPIFNOT", .ad, .none, false⟩
  | jumpIfEqual => ⟨"JUMPIFEQ", .ad, .none, true⟩
  | jumpIfLessEqual => ⟨"JUMPIFLE", .ad, .none, true⟩
  | jumpIfLess => ⟨"JUMPIFLT", .ad, .none, true⟩
  | jumpIfNotEqual => ⟨"JUMPIFNOTEQ", .ad, .none, true⟩
  | jumpIfNotLessEqual => ⟨"JUMPIFNOTLE", .ad, .none, true⟩
  | jumpIfNotLess => ⟨"JUMPIFNOTLT", .ad, .none, true⟩
  | add => ⟨"ADD", .abc, .none, false⟩
  | sub => ⟨"SUB", .abc, .none, false⟩
  | mul => ⟨"MUL", .abc, .none, false⟩
  | div => ⟨"DIV", .abc, .none, false⟩
  | mod => ⟨"MOD", .abc, .none, false⟩
  | pow => ⟨"POW", .abc, .none, false⟩
  | addConstant => ⟨"ADDK", .abc, .c, false⟩
  | subConstant => ⟨"SUBK", .abc, .c, false⟩
  | mulConstant => ⟨"MULK", .abc, .c, false⟩
  | divConstant => ⟨"DIVK", .abc, .c, false⟩
  | modConstant => ⟨"MODK", .abc, .c, false⟩
  | powConstant => ⟨"POWK", .abc, .c, false⟩
  | and => ⟨"AND", .abc, .none, false⟩
  | or => ⟨"OR", .abc, .none, false⟩
  | andConstant => ⟨"ANDK", .abc, .c, false⟩
  | orConstant => ⟨"ORK", .abc, .c, false⟩
  | concat => ⟨"CONCAT", .abc, .none, false⟩
  | not => ⟨"NOT", .ab, .none, false⟩
  | minus => ⟨"MINUS", .ab, .none, false⟩
  | length => ⟨"LENGTH", .ab, .none, false⟩
  | newTable => ⟨"NEWTABLE", .ab, .none, true⟩
  | dupTable => ⟨"DUPTABLE", .ad, .d, false⟩
  | setList => ⟨"SETLIST", .abc, .none, true⟩
  | numericPrep => ⟨"FORNPREP", .ad, .none, false⟩
  | numericLoop => ⟨"FORNLOOP", .ad, .none, false⟩
  | genericLoop => ⟨"FORGLOOP", .ad, .auxCount, true⟩
  | genericPrepIndexed => ⟨"FORGPREP_INEXT", .ad, .none, false⟩
  | fastCall3 => ⟨"FASTCALL3", .abc, .aux, true⟩
  | genericPrepNext => ⟨"FORGPREP_NEXT", .ad, .none, false⟩
  | nativeCall => ⟨"NATIVECALL", .none, .none, false⟩
  | getVarargs => ⟨"GETVARARGS", .ab, .none, false⟩
  | dupClosure => ⟨"DUPCLOSURE", .ad, .d, false⟩
  | prepVarargs => ⟨"PREPVARARGS", .a, .none, false⟩
  | loadConstantExtended => ⟨"LOADKX", .a, .aux, true⟩
  | jumpExtended => ⟨"JUMPX", .ae, .none, false⟩
  | fastCall => ⟨"FASTCALL", .abc, .none, false⟩
  | coverage => ⟨"COVERAGE", .ae, .none, false⟩
  | capture => ⟨"CAPTURE", .ab, .none, false⟩
  | subFromConstant => ⟨"SUBRK", .abc, .b, false⟩
  | divFromConstant => ⟨"DIVRK", .abc, .b, false⟩
  | fastCall1 => ⟨"FASTCALL1", .abc, .none, false⟩
  | fastCall2 => ⟨"FASTCALL2", .abc, .none, true⟩
  | fastCall2Constant => ⟨"FASTCALL2K", .abc, .aux, true⟩
  | genericPrep => ⟨"FORGPREP", .ad, .none, false⟩
  | jumpIfNil => ⟨"JUMPXEQKNIL", .ad, .auxFlag, true⟩
  | jumpIfBoolean => ⟨"JUMPXEQKB", .ad, .auxFlag, true⟩
  | jumpIfNumber => ⟨"JUMPXEQKN", .ad, .auxIndex, true⟩
  | jumpIfString => ⟨"JUMPXEQKS", .ad, .auxIndex, true⟩
  | idiv => ⟨"IDIV", .abc, .none, false⟩
  | idivConstant => ⟨"IDIVK", .abc, .c, false⟩

/-- The name of an operation. -/
def name (op : Opcode) : Bytes := Bytes.ofString op.info.name

/-- The number of an operation leads back to it. -/
theorem ofNat?_toNat (op : Opcode) : ofNat? op.toNat = some op := by
  cases op <;> rfl

end Opcode

end ScriptMachine
