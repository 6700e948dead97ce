import KeypadCalculator.Calculator

/-!
The settings of the program, and what is odd about them without being wrong.
-/

namespace KeypadCalculator

structure Settings where
  precision : UInt32 := .ofNat defaultPrecision
  prompt : Text := ['>', ' ']
  echoExpression : Bool := false
  deriving DecidableEq

/-- What a warning is about, and what it says. -/
structure Warning where
  field : Text
  message : Text
  deriving DecidableEq

namespace Settings

def precisionWarnings (s : Settings) : List Warning :=
  if maxPrecision < s.precision.toNat then
    [⟨"precision".toList,
      "Precision ".toList ++ Text.numeral s.precision.toNat ++ " exceeds maximum (".toList ++
        Text.numeral maxPrecision ++ "). It will be clamped.".toList⟩]
  else if s.precision = 0 then
    [⟨"precision".toList, "Precision 0 rounds every result to an integer.".toList⟩]
  else []

def promptWarnings (s : Settings) : List Warning :=
  if s.prompt.isEmpty then
    [⟨"prompt".toList, "Prompt is empty. Input lines will not be marked.".toList⟩]
  else []

def warnings (s : Settings) : List Warning :=
  s.precisionWarnings ++ s.promptWarnings

/-- The settings with another precision, if one is given. -/
def withPrecision? (s : Settings) (precision? : Option UInt32) : Settings :=
  match precision? with
  | some precision => { s with precision }
  | none => s

end Settings

end KeypadCalculator
