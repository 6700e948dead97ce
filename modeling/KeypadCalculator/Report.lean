import KeypadCalculator.Calculator
import KeypadCalculator.Text.Json

/-!
The report on one expression, typed into a fresh calculator and evaluated.
-/

namespace KeypadCalculator

/-- A blank expression has neither a value nor an error. -/
structure Report where
  expression : Text
  display : Text
  value : Option Binary64
  error : Option Text
  deriving DecidableEq

namespace Report

def ofExpression (expression : Text) (precision : Nat) : Report :=
  let (outcome, c) := ((Calculator.withPrecision precision).typeText expression).evaluate
  match outcome with
  | .ok value => ⟨expression, c.display, value, none⟩
  | .error why => ⟨expression, c.display, none, some why.message⟩

/-- One member of a JSON object, on a line of its own. -/
def member (name : Text) (value : Text) : Text :=
  "  ".toList ++ Json.string name ++ ": ".toList ++ value

def orNull {α : Type} (write : α → Text) : Option α → Text
  | some value => write value
  | none => "null".toList

def json (r : Report) : Text :=
  let members :=
    [member "expression".toList (Json.string r.expression),
      member "display".toList (Json.string r.display),
      member "value".toList (orNull Json.number r.value),
      member "error".toList (orNull Json.string r.error)]
  '{' :: '\n' :: ",\n".toList.intercalate members ++ ['\n', '}']

end Report

end KeypadCalculator
