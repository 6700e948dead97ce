import KeypadCalculator.Calculator

/-!
Keys and buttons and the actions they stand for. Everything else is not a key and asks for nothing.
-/

namespace KeypadCalculator

namespace Action

/-- The action of a typed character. -/
def ofChar? (c : Char) : Option Action :=
  if c = '=' then some .evaluate
  else if c.isDigit || c ∈ ['+', '-', '*', '/', '.', '(', ')'] then some (.append c)
  else none

/-- The action of a key by its name. A key that types a character is named by it. -/
def ofKey? (name : Text) : Option Action :=
  if name = "Enter".toList then some .evaluate
  else if name = "Backspace".toList then some .erase
  else if name = "Escape".toList then some .clear
  else
    match name with
    | [c] => ofChar? c
    | _ => none

end Action

structure Button where
  label : Text
  action : Action
  deriving DecidableEq

namespace Keypad

/-- The buttons, row by row. -/
def rows : List (List Button) :=
  [[⟨['C'], .clear⟩, ⟨['⌫'], .erase⟩, ⟨['('], .append '('⟩, ⟨[')'], .append ')'⟩],
    [⟨['7'], .append '7'⟩, ⟨['8'], .append '8'⟩, ⟨['9'], .append '9'⟩, ⟨['÷'], .append '/'⟩],
    [⟨['4'], .append '4'⟩, ⟨['5'], .append '5'⟩, ⟨['6'], .append '6'⟩, ⟨['×'], .append '*'⟩],
    [⟨['1'], .append '1'⟩, ⟨['2'], .append '2'⟩, ⟨['3'], .append '3'⟩, ⟨['−'], .append '-'⟩],
    [⟨['0'], .append '0'⟩, ⟨['.'], .append '.'⟩, ⟨['='], .evaluate⟩, ⟨['+'], .append '+'⟩]]

def button? (label : Text) : Option Button :=
  rows.flatten.find? fun button => button.label == label

/-- One line a row, every label in square brackets. -/
def picture : Text :=
  rows.flatMap fun row =>
    [' '].intercalate (row.map fun button => "[ ".toList ++ button.label ++ " ]".toList) ++ ['\n']

end Keypad

/-- The action of a character in a line of keys: its own, or that of the button it labels. -/
def Action.ofGlyph? (c : Char) : Option Action :=
  (ofChar? c).or ((Keypad.button? [c]).map Button.action)

end KeypadCalculator
