import KeypadCalculator.Binary64.Shortest

/-!
JSON strings and numbers. Only what must be escaped is, and a number has the fewest digits that read
back as it.
-/

namespace KeypadCalculator.Json

def escape (c : Char) : Text :=
  match c with
  | '"' => ['\\', '"']
  | '\\' => ['\\', '\\']
  | '\x08' => ['\\', 'b']
  | '\t' => ['\\', 't']
  | '\n' => ['\\', 'n']
  | '\x0c' => ['\\', 'f']
  | '\r' => ['\\', 'r']
  | c =>
    if c.toNat < 0x20 then
      ['\\', 'u', '0', '0', Nat.digitChar (c.toNat / 16), Nat.digitChar (c.toNat % 16)]
    else [c]

def string (t : Text) : Text :=
  '"' :: t.flatMap escape ++ ['"']

/-- The leading places that are written positionally: from `0.00001` to below `10^16`. -/
def isPositional (place : Int) : Bool :=
  decide (-5 ≤ place ∧ place < 16)

/-- A magnitude, with a digit after the point where it is written positionally. -/
def magnitude (d : Decimal) : Text :=
  if isPositional d.leadingPlace then
    if 0 ≤ d.exponent then d.positional ++ ['.', '0'] else d.positional
  else d.scientific

/-- A number, or null for what JSON has no number for. -/
def number : Binary64 → Text
  | .finite negative rank =>
    let digits := if rank.val = 0 then ['0', '.', '0'] else magnitude (Binary64.shortest .evenDigit rank)
    if negative then '-' :: digits else digits
  | _ => "null".toList

end KeypadCalculator.Json
