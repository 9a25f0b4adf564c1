import ScriptMachine.Bytes
import ScriptMachine.Number.Basic

/-!
# Reading numbers

A string is read as a number when the whole of it, white space at both ends aside, is a numeral:

* a decimal literal with an optional sign, fraction and exponent;
* one of the words `inf`, `infinity`, `nan` and `nan(...)`, in any case, with an optional sign;
* a hexadecimal literal: an optional sign, `0x`, and the field of hexadecimal digits, which may
  itself begin with white space, a sign and a second `0x`, and stands for at most 2^64 - 1.

`readInBase` reads integers in a base of the caller's choice.
-/

namespace ScriptMachine.Number

/-! ## Signs -/

/-- Whether a text starts with a minus sign, and the text behind its sign. -/
def takeSign (s : Bytes) : Bool × Bytes :=
  match s with
  | 0x2d :: rest => (true, rest)
  | 0x2b :: rest => (false, rest)
  | _ => (false, s)

/-- The negated number when asked for. -/
def withSign (negative : Bool) (x : Float) : Float := if negative then -x else x

/-! ## Hexadecimal -/

/-- The text behind `0x` or `0X`, when more follows. -/
def takeHexMark? (s : Bytes) : Option Bytes :=
  match s with
  | 0x30 :: x :: rest => if Bytes.toLower x = 0x78 ∧ rest ≠ [] then some rest else none
  | _ => none

/-- The value of a field of hexadecimal digits in 64 bits: negated modulo 2^64 behind a minus
sign, and 2^64 - 1 when the digits exceed the 64 bits. -/
def hexField? (s : Bytes) : Option Nat :=
  let (negative, unsigned) := takeSign (Bytes.trimLeft s)
  let (digits, rest) := Bytes.readDigits 16 ((takeHexMark? unsigned).getD unsigned)
  if digits = [] ∨ rest ≠ [] then none
  else
    let value := Bytes.valueOfDigits 16 digits
    if 2 ^ 64 ≤ value then some (2 ^ 64 - 1)
    else if negative then some ((2 ^ 64 - value) % 2 ^ 64)
    else some value

/-! ## Decimal -/

/-- The exponent behind a mantissa: nothing at all, or `e`, an optional sign and digits. -/
def exponent? (s : Bytes) : Option Int :=
  match s with
  | [] => some 0
  | e :: rest =>
    if Bytes.toLower e = 0x65 then
      let (negative, unsigned) := takeSign rest
      match Bytes.readDigits 10 unsigned with
      | ([], _) => none
      | (digits, []) =>
        let value : Int := Bytes.valueOfDigits 10 digits
        some (if negative then -value else value)
      | _ => none
    else none

/-- The number nearest to `mantissa * 10^exponent`.  From 10^310 on that is infinity, and below
10^-325 it is zero. -/
def ofDecimal (mantissa : Nat) (exponent : Int) : Float :=
  if mantissa = 0 then 0
  else if 310 ≤ exponent then Float.ofBits 0x7ff0000000000000
  else if mantissa.log2 + 1 + exponent ≤ -325 then 0
  else
    match exponent with
    | .ofNat e => Float.ofScientific mantissa false e
    | .negSucc e => Float.ofScientific mantissa true (e + 1)

/-- An unsigned decimal literal. -/
def decimal? (s : Bytes) : Option Float :=
  let (whole, rest) := Bytes.readDigits 10 s
  let (fraction, rest) :=
    match rest with
    | 0x2e :: tail => Bytes.readDigits 10 tail
    | _ => ([], rest)
  if whole = [] ∧ fraction = [] then none
  else
    (exponent? rest).map fun exponent =>
      ofDecimal (Bytes.valueOfDigits 10 (whole ++ fraction)) (exponent - fraction.length)

/-! ## Words -/

/-- A byte that may stand between the brackets of `nan(...)`. -/
def isTagByte (b : UInt8) : Bool := Bytes.isAlphanumeric b || b == 0x5f

/-- The words for infinity and for what is not a number, in any case. -/
def word? (s : Bytes) : Option Float :=
  let word := s.map Bytes.toLower
  if word = Bytes.ofString "inf" ∨ word = Bytes.ofString "infinity" then
    some (Float.ofBits 0x7ff0000000000000)
  else if word = Bytes.ofString "nan" then some (Float.ofBits 0x7ff8000000000000)
  else if word.take 4 = Bytes.ofString "nan(" ∧ (word.drop 4).getLast? = some (Bytes.ofChar ')')
      ∧ (word.drop 4).dropLast.all isTagByte then
    some (Float.ofBits 0x7ff8000000000000)
  else none

/-! ## Numerals -/

/-- The number that a string stands for, if the whole of it is a numeral. -/
def ofNumeral? (s : Bytes) : Option Float :=
  let (negative, body) := takeSign (Bytes.trim s)
  (match takeHexMark? body with
    | some field => (hexField? field).map ofNat
    | none => (decimal? body).or (word? body)).map (withSign negative)

/-- The number read as an integer of the given base, with an optional sign and white space at
either end.  The value is gathered digit by digit in doubles. -/
def readInBase (base : Nat) (s : Bytes) : Option Float :=
  let (negative, body) := takeSign (Bytes.trimLeft s)
  match Bytes.readDigits base body with
  | ([], _) => none
  | (digits, rest) =>
    if Bytes.trimLeft rest = [] then
      some (withSign negative
        (digits.foldl (fun value digit => value * ofNat base + ofNat digit) 0))
    else none

end ScriptMachine.Number
