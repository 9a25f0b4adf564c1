/-!
# Byte strings

Strings of the machine are sequences of bytes, with no encoding attached.  This module fixes the
type, the classes of bytes that the reading of numbers and the layout of messages need, and the
decimal and hexadecimal texts of integers.

All classes are those of plain ASCII: a byte of `0x80` or above is neither a letter, a digit nor
white space.
-/

-- Powers with natural exponents are the plain ones, whatever is imported beside this library.
attribute [instance (high), default_instance (high + 1)] instPowNat

namespace ScriptMachine

/-- A string of the machine: bytes, compared one by one and ordered lexicographically. -/
abbrev Bytes := List UInt8

namespace Bytes

/-! ## Text -/

/-- The bytes of a text in UTF-8. -/
def ofString (s : String) : Bytes := s.toUTF8.data.toList

/-- The byte of an ASCII character. -/
def ofChar (c : Char) : UInt8 := c.toNat.toUInt8

/-- Decimal digits of a natural number, without leading zeros. -/
def ofNat (n : Nat) : Bytes := (Nat.toDigits 10 n).map ofChar

/-- Decimal text of an integer, with a minus sign when it is negative. -/
def ofInt : Int → Bytes
  | .ofNat n => ofNat n
  | .negSucc n => ofChar '-' :: ofNat (n + 1)

/-- Two lower-case hexadecimal digits of a byte. -/
def hexOfByte (b : UInt8) : Bytes :=
  [b.toNat / 16, b.toNat % 16].map fun d => ofChar (Nat.digitChar d)

/-- Two lower-case hexadecimal digits for every byte. -/
def hex (s : Bytes) : Bytes := s.flatMap hexOfByte

/-- The pieces of a text one behind the other. -/
def concat (pieces : List Bytes) : Bytes := pieces.flatten

/-- The parts with a separator between neighbours. -/
def join (separator : Bytes) (parts : List Bytes) : Bytes := separator.intercalate parts

/-- The text, followed by as many spaces as it lacks to the given width. -/
def padRight (width : Nat) (s : Bytes) : Bytes := s ++ List.replicate (width - s.length) 0x20

/-! ## Classes of bytes -/

/-- White space: space, tab, line feed, vertical tab, form feed, carriage return. -/
def isSpace (b : UInt8) : Bool := b == 0x20 || (0x09 ≤ b && b ≤ 0x0d)

/-- One of `0` to `9`. -/
def isDigit (b : UInt8) : Bool := 0x30 ≤ b && b ≤ 0x39

/-- One of `a` to `z`. -/
def isLower (b : UInt8) : Bool := 0x61 ≤ b && b ≤ 0x7a

/-- One of `A` to `Z`. -/
def isUpper (b : UInt8) : Bool := 0x41 ≤ b && b ≤ 0x5a

/-- The lower-case form of a capital letter; any other byte as it is. -/
def toLower (b : UInt8) : UInt8 := if isUpper b then b + 0x20 else b

/-- The capital form of a lower-case letter; any other byte as it is. -/
def toUpper (b : UInt8) : UInt8 := if isLower b then b - 0x20 else b

/-- A letter or a digit. -/
def isAlphanumeric (b : UInt8) : Bool := isDigit b || isLower b || isUpper b

/-- The worth of a digit or letter as a digit: `0` to `9`, then `a` (or `A`) for ten and so on. -/
def digitValue? (b : UInt8) : Option Nat :=
  if isDigit b then some (b.toNat - 0x30)
  else if isLower (toLower b) then some ((toLower b).toNat - 0x61 + 10)
  else none

/-- The worth of a byte as a digit below the base, if it is one. -/
def digitBelow? (base : Nat) (b : UInt8) : Option Nat :=
  (digitValue? b).filter (· < base)

/-! ## Trimming and reading digits -/

/-- The bytes that pairs of hexadecimal digits stand for; anything that is no digit counts as
zero. -/
def ofHex : Bytes → Bytes
  | high :: low :: rest =>
    let worth (b : UInt8) : Nat := (digitBelow? 16 b).getD 0
    (16 * worth high + worth low).toUInt8 :: ofHex rest
  | _ => []

/-- The text without leading white space. -/
def trimLeft (s : Bytes) : Bytes := s.dropWhile isSpace

/-- The text without trailing white space. -/
def trimRight (s : Bytes) : Bytes := (s.reverse.dropWhile isSpace).reverse

/-- The text without white space at either end. -/
def trim (s : Bytes) : Bytes := trimRight (trimLeft s)

/-- The part of a text before its first zero byte.  The texts of errors, and those that cross the
border to a host, end there. -/
def untilZero (s : Bytes) : Bytes := s.takeWhile (· != 0)

/-- The value of a sequence of digits, most significant first. -/
def valueOfDigits (base : Nat) (digits : List Nat) : Nat :=
  digits.foldl (fun value digit => value * base + digit) 0

/-- The value of the leading digits below the base, and what follows them. -/
def readDigits (base : Nat) (s : Bytes) : List Nat × Bytes :=
  match s with
  | [] => ([], [])
  | b :: rest =>
    match digitBelow? base b with
    | some d => let (ds, tail) := readDigits base rest; (d :: ds, tail)
    | none => ([], b :: rest)

end Bytes

end ScriptMachine
