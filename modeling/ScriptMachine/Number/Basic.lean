import ScriptMachine.Bytes

/-!
# Numbers

Numbers are IEEE 754 doubles and vector components are IEEE 754 singles.  Sums, products and
comparisons are those of `Float`; this module adds what else the machine needs, each defined on
the exact value of a number (sign, mantissa, binary exponent), so that no rounding is hidden:

* `integer?`, the integer that a number is equal to;
* `floor` and `truncate`;
* `index?`, the integers that can address the array part of a table;
* `widen` and `narrow` between singles and doubles.
-/

namespace ScriptMachine.Number

open Float.Model (UnpackedFloat Format)

/-- Sign, mantissa and binary exponent of a number. -/
def parts (x : Float) : UnpackedFloat := x.toModel.unpack

/-- The integer that a number is equal to, if there is one; both zeros are the integer zero. -/
def integer? (x : Float) : Option Int :=
  match parts x with
  | .zero _ => some 0
  | .finite sign mantissa exponent _ =>
    if 0 ≤ exponent then some (sign.apply (mantissa * 2 ^ exponent.toNat))
    else
      let unit := 2 ^ (-exponent).toNat
      if mantissa % unit = 0 then some (sign.apply (mantissa / unit)) else none
  | _ => none

/-- The greatest integral number that is not above the given one. -/
def floor (x : Float) : Float :=
  match parts x with
  | .finite sign mantissa exponent _ =>
    if 0 ≤ exponent then x
    else
      let unit := 2 ^ (-exponent).toNat
      match sign with
      | .positive => Float.ofNat (mantissa / unit)
      | .negative => -Float.ofNat ((mantissa + unit - 1) / unit)
  | _ => x

/-- The integer part of a number, cut toward zero.  What has none in the 64-bit signed range is
sent to the least integer of that range. -/
def truncate (x : Float) : Int :=
  match parts x with
  | .zero _ => 0
  | .finite sign mantissa exponent _ =>
    let magnitude :=
      if 0 ≤ exponent then mantissa * 2 ^ exponent.toNat else mantissa / 2 ^ (-exponent).toNat
    let value : Int := sign.apply magnitude
    if -(2 ^ 63) ≤ value ∧ value < 2 ^ 63 then value else -(2 ^ 63)
  | _ => -(2 ^ 63)

/-- The positive integers up to 2^53, which are the keys that an array part can hold. -/
def index? (x : Float) : Option Nat :=
  match integer? x with
  | some n => if 1 ≤ n ∧ n ≤ 2 ^ 53 then some n.toNat else none
  | none => none

/-- The number nearest to an integer, a tie going to the even mantissa. -/
def ofInt (n : Int) : Float := Float.ofInt n

/-- The number nearest to a natural number, a tie going to the even mantissa. -/
def ofNat (n : Nat) : Float := Float.ofNat n

/-- The double with the value of a single. -/
def widen (x : Float32) : Float :=
  .ofModel <| .pack <|
    match x.toModel.unpack with
    | .finite sign mantissa exponent _ => .round Format.binary64 sign mantissa exponent
    | special => special

/-- The single nearest to a double, a tie going to the even mantissa. -/
def narrow (x : Float) : Float32 :=
  .ofModel <| .pack <|
    match x.toModel.unpack with
    | .finite sign mantissa exponent _ => .round Format.binary32 sign mantissa exponent
    | special => special

end ScriptMachine.Number
