import ScriptMachine.Bytes

/-!
# Load errors

Why a byte string is not a module: it is corrupt in one of a dozen ways, or it holds an operation
that the machine does not know.
-/

namespace ScriptMachine

/-- The least bytecode version that is read. -/
def minVersion : Nat := 3

/-- The greatest bytecode version that is read. -/
def maxVersion : Nat := 6

/-- What is wrong with a corrupt module. -/
inductive Corruption where
  /-- More bytes were needed than are left. -/
  | overrun (count offset size : Nat)
  /-- The bytes are the report of a compiler. -/
  | compileError
  /-- A version that is not read. -/
  | version (number : Nat)
  /-- A child that is no prototype of the module. -/
  | missingChild (index child : Nat)
  /-- A closure constant that is no prototype of the module. -/
  | missingClosure (index closure : Nat)
  /-- A main prototype that is none. -/
  | missingRoot (root count : Nat)
  /-- Bytes behind the module. -/
  | trailing (count : Nat)
  /-- A reference to a string that is not there. -/
  | stringRange (index : Nat)
  /-- The code ends before an auxiliary word. -/
  | auxOverrun (index size : Nat)
  /-- A constant of no known kind. -/
  | constantKind (kind : Nat)
  /-- A reference to a constant that is not there. -/
  | constantRange (reference : Int) (index count : Nat)
  /-- A distance between line entries that is too large. -/
  | lineGap (gapLog2 : Nat)
deriving DecidableEq

/-- The message of a corruption. -/
def Corruption.message : Corruption → Bytes
  | .overrun count offset size => Bytes.concat
    [.ofString "read of ", .ofNat count, .ofString " bytes at offset ", .ofNat offset,
      .ofString " overruns buffer of ", .ofNat size, .ofString " bytes"]
  | .compileError => .ofString "bytecode version 0: the buffer holds a compile error, not a module"
  | .version number => Bytes.concat
    [.ofString "bytecode version ", .ofNat number, .ofString " outside supported range [",
      .ofNat minVersion, .ofString ", ", .ofNat maxVersion, .ofString "]"]
  | .missingChild index child => Bytes.concat
    [.ofString "prototype ", .ofNat index, .ofString " references missing child ", .ofNat child]
  | .missingClosure index closure => Bytes.concat
    [.ofString "prototype ", .ofNat index, .ofString " references missing closure ",
      .ofNat closure]
  | .missingRoot root count => Bytes.concat
    [.ofString "root prototype ", .ofNat root, .ofString " out of range (", .ofNat count,
      .ofString " prototypes)"]
  | .trailing count => .ofNat count ++ .ofString " trailing bytes after module"
  | .stringRange index =>
    Bytes.concat [.ofString "string index ", .ofNat index, .ofString " out of range"]
  | .auxOverrun index size => Bytes.concat
    [.ofString "prototype ", .ofNat index, .ofString ": aux word runs past ", .ofNat size,
      .ofString " code words"]
  | .constantKind kind => .ofString "unknown constant kind " ++ .ofNat kind
  | .constantRange reference index count => Bytes.concat
    [.ofString "constant ", .ofInt reference, .ofString " out of range in prototype ",
      .ofNat index, .ofString " (", .ofNat count, .ofString " constants)"]
  | .lineGap gapLog2 =>
    Bytes.concat [.ofString "line gap log2 ", .ofNat gapLog2, .ofString " too large"]

/-- Why a byte string is not a module. -/
inductive LoadError where
  /-- The bytes are not in the format. -/
  | corrupt (corruption : Corruption)
  /-- An operation with no known number. -/
  | unsupportedOpcode (opcode slot index : Nat)
deriving DecidableEq

/-- The message of a load error. -/
def LoadError.message : LoadError → Bytes
  | .corrupt corruption => corruption.message
  | .unsupportedOpcode opcode slot index => Bytes.concat
    [.ofString "unsupported opcode ", .ofNat opcode, .ofString " at pc ", .ofNat slot,
      .ofString " in prototype ", .ofNat index]

end ScriptMachine
