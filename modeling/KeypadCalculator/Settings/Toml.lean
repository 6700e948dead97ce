import KeypadCalculator.Settings
import KeypadCalculator.Toml.Reader
import KeypadCalculator.Toml.Writer

/-!
Settings as TOML. A reader takes each field on its own, by its exact type, and lets a missing one keep
its default; other keys do not matter. A writer gives every field a line, and the prompt the plainest
kind of string that can hold it.
-/

namespace KeypadCalculator.Settings

open Toml

def precisionKey : Text := "precision".toList

def promptKey : Text := "prompt".toList

def echoKey : Text := "echo_expression".toList

def precision? (t : Table) : Option UInt32 :=
  match t.lookup precisionKey with
  | none => some ({} : Settings).precision
  | some (.integer n) => if 0 ≤ n ∧ n < UInt32.size then some (.ofNat n.toNat) else none
  | some _ => none

def prompt? (t : Table) : Option Text :=
  match t.lookup promptKey with
  | none => some ({} : Settings).prompt
  | some (.text prompt) => some prompt
  | some _ => none

def echo? (t : Table) : Option Bool :=
  match t.lookup echoKey with
  | none => some ({} : Settings).echoExpression
  | some (.boolean echo) => some echo
  | some _ => none

def ofTable? (t : Table) : Option Settings :=
  match precision? t, prompt? t, echo? t with
  | some precision, some prompt, some echo => some ⟨precision, prompt, echo⟩
  | _, _, _ => none

def ofToml? (t : Text) : Option Settings :=
  (parse? t).bind ofTable?

def boolean (b : Bool) : Text :=
  if b then "true".toList else "false".toList

def line (key value : Text) : Text :=
  key ++ " = ".toList ++ value ++ ['\n']

def toToml (s : Settings) : Text :=
  line precisionKey (Text.numeral s.precision.toNat) ++ line promptKey (quote s.prompt) ++
    line echoKey (boolean s.echoExpression)

end KeypadCalculator.Settings
