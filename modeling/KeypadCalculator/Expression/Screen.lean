import KeypadCalculator.Text.Basic

/-!
What is checked before a text is read as arithmetic: operator glyphs become plain operators, every
character must belong to the arithmetic alphabet, and parentheses must balance in number. Grammar is
not checked here.
-/

namespace KeypadCalculator

/-- Characters that are shown or typed for one plain operator. -/
structure GlyphFamily where
  glyphs : List Char
  plain : Char

namespace GlyphFamily

def times : GlyphFamily := ⟨['×', 'x', '✕'], '*'⟩

def divide : GlyphFamily := ⟨['÷'], '/'⟩

def minus : GlyphFamily := ⟨['–', '−'], '-'⟩

def replace (family : GlyphFamily) (t : Text) : Text :=
  t.map fun c => if c ∈ family.glyphs then family.plain else c

end GlyphFamily

/-- The text with plain operators in place of glyphs, one family after another. -/
def withPlainOperators (t : Text) : Text :=
  GlyphFamily.minus.replace (GlyphFamily.divide.replace (GlyphFamily.times.replace t))

/-- Why a text is turned away before it is read. -/
inductive Rejection where
  | disallowed (c : Char) (position : Nat)
  | unbalanced (opening closing : Nat)
  deriving DecidableEq

def Rejection.message : Rejection → Text
  | disallowed c position =>
    "Disallowed character '".toList ++ [c] ++ "' at position ".toList ++ Text.numeral position
  | unbalanced opening closing =>
    "Unbalanced parentheses: ".toList ++ Text.numeral opening ++ " opening, ".toList ++
      Text.numeral closing ++ " closing".toList

/-- Digits, the point, the four operators, parentheses and blanks. -/
def isArithmetic (c : Char) : Bool :=
  c.isDigit || c ∈ ['+', '-', '*', '/', '(', ')', '.'] || isBlank c

/-- The leftmost character outside the arithmetic alphabet, with its position. -/
def firstForeign? (t : Text) : Option (Char × Nat) :=
  t.zipIdx.find? fun entry => !isArithmetic entry.1

/-- The text with plain operators, if it may be read as arithmetic. -/
def screen (t : Text) : Except Rejection Text :=
  let plain := withPlainOperators t
  match firstForeign? plain with
  | some (c, position) => .error (.disallowed c position)
  | none =>
    let opening := plain.count '('
    let closing := plain.count ')'
    if opening = closing then .ok plain else .error (.unbalanced opening closing)

end KeypadCalculator
