import ScriptMachine.Bytecode.LoadError
import ScriptMachine.Value

/-!
# Reading bytes

A cursor stands between the bytes that have been read and those that are left.  Every read takes
what it needs from the front of the latter, or fails and says how much was missing; numbers are
little-endian.  A failed read leaves the cursor where the missing bytes should begin, so that a
variable-length number that breaks off has consumed its first bytes.
-/

namespace ScriptMachine

/-- A position in a byte string. -/
structure Cursor where
  /-- Count of the bytes that have been read. -/
  position : Nat
  /-- The bytes that are left. -/
  rest : Bytes

namespace Cursor

/-- The cursor before the first byte. -/
def ofBytes (bytes : Bytes) : Cursor := ⟨0, bytes⟩

/-- Count of the bytes that are left. -/
def remaining (c : Cursor) : Nat := c.rest.length

/-- Count of all bytes. -/
def size (c : Cursor) : Nat := c.position + c.rest.length

/-- Whether no bytes are left. -/
def atEnd (c : Cursor) : Bool := c.rest.isEmpty

end Cursor

/-- A step of reading: it moves a cursor and gives a result, or fails. -/
abbrev Reader (α : Type) := EStateM LoadError Cursor α

namespace Reader

/-! ## Bytes -/

/-- The first bytes of a list and the others, when there are enough. -/
def split? : Nat → Bytes → Option (Bytes × Bytes)
  | 0, bytes => some ([], bytes)
  | _ + 1, [] => none
  | n + 1, b :: bytes => (split? n bytes).map fun (first, rest) => (b :: first, rest)

/-- The next bytes, as many as asked for. -/
def take (n : Nat) : Reader Bytes := fun c =>
  match split? n c.rest with
  | some (first, rest) => .ok first ⟨c.position + n, rest⟩
  | none => .error (.corrupt (.overrun n c.position c.size)) c

/-- Passes over bytes. -/
def skip (n : Nat) : Reader Unit := do let _ ← take n

/-- The next byte. -/
def byte : Reader UInt8 := fun c =>
  match c.rest with
  | b :: rest => .ok b ⟨c.position + 1, rest⟩
  | [] => .error (.corrupt (.overrun 1 c.position c.size)) c

/-- A truth value: any byte but zero is true. -/
def flag : Reader Bool := do return (← byte) != 0

/-! ## Numbers -/

/-- The number with the given bytes, least significant first. -/
def littleEndian (bytes : Bytes) : Nat := bytes.foldr (fun b n => b.toNat + 256 * n) 0

/-- Four bytes as a word. -/
def word : Reader UInt32 := do return (littleEndian (← take 4)).toUInt32

/-- Four bytes as a single. -/
def single : Reader Float32 := do return Float32.ofBits (← word)

/-- Eight bytes as a double. -/
def double : Reader Float := do return Float.ofBits (littleEndian (← take 8)).toUInt64

/-- Groups of seven bits, low group first, as long as the high bit of a byte says that another one
follows. -/
def groups : Nat → Nat → Reader Nat
  | 0, _ => pure 0
  | count + 1, shift => do
    let b ← byte
    let low := b.toNat % 128 * 2 ^ shift
    if b < 128 then return low
    else return low + (← groups count (shift + 7))

/-- A number of at most five groups, cut to 32 bits. -/
def varint : Reader Nat := do return (← groups 5 0) % 2 ^ 32

/-- A string: its length and its bytes. -/
def string : Reader Bytes := do take (← varint)

/-! ## Repetition -/

/-- As many results of a step as asked for, in order. -/
def replicate {α : Type} (step : Reader α) : Nat → Reader (List α)
  | 0 => pure []
  | count + 1 => do
    let first ← step
    let others ← replicate step count
    return first :: others

/-- A count and as many results of a step. -/
def counted {α : Type} (step : Reader α) : Reader (List α) := do replicate step (← varint)

/-- Fails with a corruption. -/
def corrupt {α : Type} (corruption : Corruption) : Reader α := throw (.corrupt corruption)

end Reader

end ScriptMachine
