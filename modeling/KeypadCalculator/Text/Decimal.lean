import KeypadCalculator.Text.Basic

/-!
Decimal numbers `coefficient * 10^exponent` and their two written forms, positional and scientific.
-/

namespace KeypadCalculator

structure Decimal where
  coefficient : Nat
  exponent : Int
  deriving DecidableEq

namespace Decimal

/-- The place of the first digit: `0` for units, `-1` for tenths. -/
def leadingPlace (d : Decimal) : Int :=
  d.exponent + (Text.numeral d.coefficient).length - 1

/-- All digits up to the point, then the point and all digits after it. There is no point where
there are no digits after it, and always a digit before it. -/
def positional (d : Decimal) : Text :=
  let digits := Text.numeral d.coefficient
  if 0 ≤ d.exponent then digits ++ List.replicate d.exponent.toNat '0'
  else
    let places := d.exponent.natAbs
    let padded := List.replicate (places + 1 - digits.length) '0' ++ digits
    let whole := padded.length - places
    padded.take whole ++ '.' :: padded.drop whole

/-- One digit, the other digits after a point if there are any, and the exponent with its sign. -/
def scientific (d : Decimal) : Text :=
  let place := d.leadingPlace
  let exponent := (if place < 0 then '-' else '+') :: Text.numeral place.natAbs
  match Text.numeral d.coefficient with
  | [] => 'e' :: exponent
  | [digit] => digit :: 'e' :: exponent
  | digit :: others => digit :: '.' :: others ++ 'e' :: exponent

end Decimal

end KeypadCalculator
