import ScriptMachine.Document.Basic
import ScriptMachine.Number.Numeral

/-!
# Tokens of documents

The text of a document is a sequence of tokens: marks, words, numbers and strings, with white space
anywhere between them.  A text with anything else in it has no tokens at all.

A number without a fraction and an exponent is an integer as long as it fits 64 bits, and a double
otherwise.  Strings are UTF-8 without control characters; `\u` escapes give UTF-16 units, of which
two may form a pair.
-/

namespace ScriptMachine

namespace Document

/-- A token. -/
inductive Token where
  /-- One of the brackets, the colon and the comma. -/
  | mark (c : Char)
  /-- A document that is a single token. -/
  | leaf (d : Document)
  /-- A string, which is also what keys are. -/
  | text (s : Bytes)

namespace Token

/-! ## White space and marks -/

/-- White space between tokens. -/
def isBlank (b : UInt8) : Bool := b == 0x20 || b == 0x09 || b == 0x0a || b == 0x0d

/-- The marks. -/
def marks : List Char := ['[', ']', '\x7b', '\x7d', ':', ',']

/-- The mark that a byte is. -/
def mark? (b : UInt8) : Option Char := marks.find? fun c => Bytes.ofChar c == b

/-! ## Words -/

/-- The words and what they stand for. -/
def words : List (Bytes × Document) :=
  [(.ofString "null", .null), (.ofString "true", .boolean true),
    (.ofString "false", .boolean false)]

/-- The word at the beginning of a text, and what follows it. -/
def word? (s : Bytes) : Option (Document × Bytes) :=
  words.findSome? fun (word, d) => if word.isPrefixOf s then some (d, s.drop word.length) else none

/-! ## Numbers -/

/-- One or more decimal digits at the beginning of a text, and what follows them. -/
def digits? (s : Bytes) : Option (List Nat × Bytes) :=
  match Bytes.readDigits 10 s with
  | ([], _) => none
  | found => some found

/-- The digits before the point: a zero stands alone. -/
def whole? (s : Bytes) : Option (List Nat × Bytes) :=
  match s with
  | 0x30 :: rest => some ([0], rest)
  | _ => digits? s

/-- The digits behind a point, none when there is no point. -/
def fraction? (s : Bytes) : Option (List Nat × Bytes) :=
  match s with
  | 0x2e :: rest => digits? rest
  | _ => some ([], s)

/-- The exponent, none when there is no mark of one. -/
def exponent? (s : Bytes) : Option (Option Int × Bytes) :=
  match s with
  | e :: rest =>
    if Bytes.toLower e = 0x65 then
      let (negative, unsigned) := Number.takeSign rest
      (digits? unsigned).map fun (digits, rest) =>
        let value : Int := Bytes.valueOfDigits 10 digits
        (some (if negative then -value else value), rest)
    else some (none, s)
  | [] => some (none, s)

/-- The number with the given parts. -/
def numberOf (negative : Bool) (whole fraction : List Nat) (exponent : Option Int) : Document :=
  let digits := Bytes.valueOfDigits 10 (whole ++ fraction)
  let value : Int := if negative then -digits else digits
  if fraction = [] ∧ exponent.isNone ∧ -(2 ^ 63) ≤ value ∧ value < 2 ^ 64 then .integer value
  else
    let magnitude := Number.ofDecimal digits (exponent.getD 0 - fraction.length)
    .number (Number.withSign negative magnitude)

/-- The number at the beginning of a text, and what follows it. -/
def number? (s : Bytes) : Option (Document × Bytes) := do
  let (negative, unsigned) := match s with
    | 0x2d :: rest => (true, rest)
    | _ => (false, s)
  let (whole, rest) ← whole? unsigned
  let (fraction, rest) ← fraction? rest
  let (exponent, rest) ← exponent? rest
  return (numberOf negative whole fraction exponent, rest)

/-! ## Strings -/

/-- The bytes that short escapes stand for. -/
def escapes : List (Char × UInt8) :=
  [('"', 0x22), ('\\', 0x5c), ('/', 0x2f), ('b', 0x08), ('f', 0x0c), ('n', 0x0a), ('r', 0x0d),
    ('t', 0x09)]

/-- The byte that a short escape stands for. -/
def escape? (b : UInt8) : Option UInt8 :=
  (escapes.find? fun entry => Bytes.ofChar entry.1 == b).map (·.2)

/-- The UTF-16 unit of four hexadecimal digits, and what follows them. -/
def unit? (s : Bytes) : Option (Nat × Bytes) :=
  match Bytes.readDigits 16 (s.take 4) with
  | (digits, []) =>
    if digits.length = 4 then some (Bytes.valueOfDigits 16 digits, s.drop 4) else none
  | _ => none

/-- The second unit of a pair, behind its own mark of an escape, and what follows it. -/
def secondUnit? (s : Bytes) : Option (Nat × Bytes) :=
  match s with
  | 0x5c :: 0x75 :: rest =>
    (unit? rest).filter fun (unit, _) => 0xdc00 ≤ unit && unit ≤ 0xdfff
  | _ => none

/-- The character of the units behind the mark of an escape, and what follows them. -/
def character? (s : Bytes) : Option (Bytes × Bytes) := do
  let (first, rest) ← unit? s
  if 0xd800 ≤ first ∧ first ≤ 0xdbff then
    let (second, rest) ← secondUnit? rest
    let code := 0x10000 + (first - 0xd800) * 0x400 + (second - 0xdc00)
    return (.ofString (String.singleton (Char.ofNat code)), rest)
  else if 0xdc00 ≤ first ∧ first ≤ 0xdfff then none
  else return (.ofString (String.singleton (Char.ofNat first)), rest)

/-- The string up to its closing mark, and what follows that.  The fuel bounds the count of
characters. -/
def string? : Nat → Bytes → Option (Bytes × Bytes)
  | 0, _ => none
  | fuel + 1, s =>
    match s with
    | [] => none
    | 0x22 :: rest => some ([], rest)
    | 0x5c :: 0x75 :: rest => do
      let (character, rest) ← character? rest
      let (tail, rest) ← string? fuel rest
      return (character ++ tail, rest)
    | 0x5c :: e :: rest => do
      let byte ← escape? e
      let (tail, rest) ← string? fuel rest
      return (byte :: tail, rest)
    | b :: rest =>
      if b < 0x20 then none
      else do
        let (tail, rest) ← string? fuel rest
        return (b :: tail, rest)

/-! ## Texts -/

/-- The tokens of a text.  The fuel bounds their count. -/
def scan? : Nat → Bytes → Option (List Token)
  | 0, _ => none
  | fuel + 1, s =>
    match s.dropWhile isBlank with
    | [] => some []
    | b :: rest =>
      let after (token : Token) (rest : Bytes) : Option (List Token) :=
        (scan? fuel rest).map (token :: ·)
      if b = 0x22 then (string? rest.length.succ rest).bind fun (s, rest) => after (.text s) rest
      else
        match mark? b with
        | some c => after (.mark c) rest
        | none =>
          ((word? (b :: rest)).or (number? (b :: rest))).bind fun (d, rest) => after (.leaf d) rest

end Token

end Document

end ScriptMachine
