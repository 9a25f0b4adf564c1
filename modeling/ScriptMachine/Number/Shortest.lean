import ScriptMachine.Number.Decimal
import ScriptMachine.Number.Numeral

/-!
# Decimal text that reads back

The text of a number for other programs must read back as the same double.  It is rounded to as few
significant digits as that allows; seventeen always suffice.
-/

namespace ScriptMachine.Number

/-- A positive number, given also as a quotient, as digits and a decimal exponent: rounded to the
fewest digits that read back. -/
def shortest (x : Float) (numerator denominator : Nat) : Nat × Int :=
  let readsBack (count : Nat) : Bool :=
    let (digits, exponent) := significand count numerator denominator
    ofDecimal digits (exponent + 1 - count) == x
  let count := ((List.range' 1 16).find? readsBack).getD 17
  significand count numerator denominator

/-- The text of a finite number in a format, by the fewest digits that read back; none when the
number is not finite. -/
def exactText? (format : DecimalFormat) (x : Float) : Option Bytes :=
  let signed (sign : Float.Model.UnpackedFloat.Sign) (text : Bytes) : Bytes :=
    match sign with
    | .negative => Bytes.ofChar '-' :: text
    | .positive => text
  match parts x with
  | .zero sign => some (signed sign (0x30 :: format.wholeMark))
  | .finite sign mantissa exponent _ =>
    let (digits, scale) :=
      shortest x.abs (mantissa * 2 ^ exponent.toNat) (2 ^ (-exponent).toNat)
    some (signed sign (format.layout (Bytes.ofNat digits) scale))
  | _ => none

end ScriptMachine.Number
