import ScriptMachine.Bytes
import ScriptMachine.Number.Basic

/-!
# Decimal text of numbers

A number that is an integer of magnitude below 10^15 is written as that integer.  Any other number
is rounded to a fixed count of significant digits and written positionally or with an exponent,
trailing zeros left out.  The rounding is exact: it is done on the number as a quotient of two
natural numbers, a tie going to the even digit.
-/

namespace ScriptMachine.Number

/-! ## Significant digits -/

/-- How a rounded number is laid out. -/
structure DecimalFormat where
  /-- The least decimal exponent that is still written positionally. -/
  leastPositional : Int
  /-- The least decimal exponent above that one that is not. -/
  positionalBelow : Int
  /-- The least count of digits in a written exponent. -/
  exponentWidth : Nat
  /-- What follows the digits of a positional number without a fraction. -/
  wholeMark : Bytes

/-- Numbers are rounded to this count of significant digits. -/
def precision : Nat := 14

/-- Numbers are positional from 10^-4 up to the precision, and an exponent has at least two
digits. -/
def numberFormat : DecimalFormat := ⟨-4, precision, 2, []⟩

/-- Integers below this magnitude are written out in full. -/
def integerLimit : Nat := 10 ^ 15

/-- Quotient rounded to the nearest natural number, a tie going to the even one. -/
def roundedQuotient (numerator denominator : Nat) : Nat :=
  let q := numerator / denominator
  match compare (2 * (numerator % denominator)) denominator with
  | .lt => q
  | .eq => q + q % 2
  | .gt => q + 1

/-- Count of decimal digits of a natural number; zero has none. -/
def digitCount (n : Nat) : Nat := if n = 0 then 0 else (Nat.toDigits 10 n).length

/-- The decimal exponent of a positive quotient: the `x` with `10^x ≤ quotient < 10^(x+1)`. -/
def decimalExponent (numerator denominator : Nat) : Int :=
  if denominator ≤ numerator then digitCount (numerator / denominator) - 1
  else -digitCount ((denominator - 1) / numerator)

/-- A positive quotient as `digits * 10^(exponent + 1 - precision)` with exactly `precision`
digits. -/
def significand (precision numerator denominator : Nat) : Nat × Int :=
  let exponent := decimalExponent numerator denominator
  let shift := (precision : Int) - 1 - exponent
  let digits := roundedQuotient (numerator * 10 ^ shift.toNat) (denominator * 10 ^ (-shift).toNat)
  if digits < 10 ^ precision then (digits, exponent) else (10 ^ (precision - 1), exponent + 1)

/-! ## Layout -/

/-- The digits without trailing zeros. -/
def stripZeros (digits : Bytes) : Bytes := (digits.reverse.dropWhile (· == 0x30)).reverse

/-- A point and the digits behind it, or else the mark of a whole number when there are none. -/
def fraction (mark digits : Bytes) : Bytes :=
  match stripZeros digits with
  | [] => mark
  | ds => Bytes.ofChar '.' :: ds

/-- Text of an exponent: its sign and at least the given count of digits. -/
def exponentText (width : Nat) (exponent : Int) : Bytes :=
  let digits := Bytes.ofNat exponent.natAbs
  Bytes.ofChar (if exponent < 0 then '-' else '+') ::
    (List.replicate (width - digits.length) 0x30 ++ digits)

/-- The text of the number `d.ddd * 10^exponent` with the given digits in a format. -/
def DecimalFormat.layout (format : DecimalFormat) (digits : Bytes) (exponent : Int) : Bytes :=
  if format.leastPositional ≤ exponent ∧ exponent < format.positionalBelow then
    if 0 ≤ exponent then
      let whole := exponent.toNat + 1
      let digits := digits ++ List.replicate (whole - digits.length) 0x30
      digits.take whole ++ fraction format.wholeMark (digits.drop whole)
    else
      0x30 :: fraction [] (List.replicate (-exponent - 1).toNat 0x30 ++ digits)
  else
    digits.take 1 ++ fraction [] (digits.drop 1) ++
      Bytes.ofChar 'e' :: exponentText format.exponentWidth exponent

/-! ## Text of a number -/

/-- Text of a finite number by its magnitude as a quotient. -/
def signedText (negative : Bool) (numerator denominator : Nat) : Bytes :=
  let (digits, exponent) := significand precision numerator denominator
  let text := numberFormat.layout (Bytes.ofNat digits) exponent
  if negative then Bytes.ofChar '-' :: text else text

/-- The text of a number. -/
def text (x : Float) : Bytes :=
  match integer? x with
  | some n =>
    if n.natAbs < integerLimit then Bytes.ofInt n else signedText (n < 0) n.natAbs 1
  | none =>
    match parts x with
    | .notANumber => Bytes.ofString "nan"
    | .infinity .positive => Bytes.ofString "inf"
    | .infinity .negative => Bytes.ofString "-inf"
    | .zero _ => [0x30]
    | .finite sign mantissa exponent _ =>
      signedText (sign matches .negative)
        (mantissa * 2 ^ exponent.toNat) (2 ^ (-exponent).toNat)

end ScriptMachine.Number
