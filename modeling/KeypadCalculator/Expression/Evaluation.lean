import KeypadCalculator.Expression.Parser
import KeypadCalculator.Expression.Screen

/-!
The result of an expression: screened, evaluated, and rounded to a number of decimal places so that
the noise of binary fractions never shows.
-/

namespace KeypadCalculator

/-- Why an expression has no result. -/
inductive Failure where
  | rejected (why : Rejection)
  | malformed (why : SyntaxError)
  | notFinite (value : Binary64)
  deriving DecidableEq

namespace Failure

def message : Failure → Text
  | rejected why => "Rejected input: ".toList ++ why.message
  | malformed why => "Evaluation failed: Syntax error: ".toList ++ why.message
  | notFinite value =>
    "Evaluation failed: Result is not a finite number (".toList ++ value.text ++ [')']

/-- A rejected text is worth correcting, so it is kept. -/
def keepsText : Failure → Bool
  | rejected _ => true
  | _ => false

end Failure

def defaultPrecision : Nat := 12

/-- More decimal places than this no binary64 number can use. -/
def maxPrecision : Nat := 15

namespace Binary64

/-- The distance from one to the next larger number. -/
def epsilon : Binary64 := ofHalvings 52

def half : Binary64 := ofHalvings 1

/-- Below this magnitude every integer is a binary64 number. -/
def exactIntegers : Binary64 := ofNat (2 * binade)

/-- The nearest integer, a half towards positive infinity. -/
def roundHalfUp (x : Binary64) : Binary64 :=
  let nearest := x.roundToInteger
  if x.less (zero false) && (x - nearest).equals half then nearest + ofNat 1 else nearest

/-- Rounds to decimal places, after a nudge that lifts decimal halves which binary fractions miss
from below. What has no such places, being too large, stays as it is. -/
def roundToPlaces (value : Binary64) (places : Nat) : Binary64 :=
  let scale := ofNat (Nat.pow 10 (min places maxPrecision))
  let scaled := (value + epsilon) * scale
  if !scaled.isFinite || scaled.abs.atLeast exactIntegers then value
  else roundHalfUp scaled / scale

end Binary64

/-- The rounded value of an expression. -/
def evaluate (t : Text) (precision : Nat) : Except Failure Binary64 :=
  match screen t with
  | .error why => .error (.rejected why)
  | .ok plain =>
    match Parser.valueOfText plain with
    | .error why => .error (.malformed why)
    | .ok value =>
      if value.isFinite then .ok (value.roundToPlaces precision) else .error (.notFinite value)

end KeypadCalculator
