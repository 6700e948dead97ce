import KeypadCalculator.Binary64.Shortest

/-!
Tokens of arithmetic text, each with the place where it starts. Scanning takes the longest token
at every place, skips blanks and stops at the leftmost fault.
-/

namespace KeypadCalculator

inductive Symbol where
  | number (value : Binary64)
  | plus
  | minus
  | times
  | divide
  | opening
  | closing
  deriving DecidableEq

structure Token where
  symbol : Symbol
  position : Nat
  deriving DecidableEq

/-- Why a text is not an arithmetic expression. -/
inductive SyntaxError where
  | unexpected (found : Token)
  | unexpectedEnd
  | invalidNumber (literal : Text)
  | tooDeep (levels : Nat)
  | unknownChar (c : Char)
  deriving DecidableEq

def Symbol.text : Symbol → Text
  | number value => value.text
  | plus => ['+']
  | minus => ['-']
  | times => ['*']
  | divide => ['/']
  | opening => ['(']
  | closing => [')']

def SyntaxError.message : SyntaxError → Text
  | unexpected found =>
    "Unexpected '".toList ++ found.symbol.text ++ "' at position ".toList ++
      Text.numeral found.position
  | unexpectedEnd => "Unexpected end of expression".toList
  | invalidNumber literal => "Invalid number '".toList ++ literal ++ ['\'']
  | tooDeep levels =>
    "Expression nested deeper than ".toList ++ Text.numeral levels ++ " levels".toList
  | unknownChar c => "Unknown character '".toList ++ [c, '\'']

namespace Token

/-- The symbol that a single character writes. -/
def symbolOf? : Char → Option Symbol
  | '+' => some .plus
  | '-' => some .minus
  | '*' => some .times
  | '/' => some .divide
  | '(' => some .opening
  | ')' => some .closing
  | _ => none

def startsNumber (c : Char) : Bool :=
  c.isDigit || c == '.'

/-- The longest run of digits with at most one point that a text starts with, and the rest. -/
def splitNumber (t : Text) : Text × Text :=
  let whole := t.takeWhile Char.isDigit
  match t.dropWhile Char.isDigit with
  | '.' :: rest => (whole ++ '.' :: rest.takeWhile Char.isDigit, rest.dropWhile Char.isDigit)
  | rest => (whole, rest)

theorem splitNumber_append (t : Text) : (splitNumber t).1 ++ (splitNumber t).2 = t := by
  have h := List.takeWhile_append_dropWhile (p := Char.isDigit) (l := t)
  simp only [splitNumber]
  split
  · next rest hr =>
    rw [hr] at h
    simpa using h
  · exact h

theorem splitNumber_shorter {c : Char} (t : Text) (h : startsNumber c = true) :
    (splitNumber (c :: t)).2.length < (c :: t).length := by
  have hlen := congrArg List.length (splitNumber_append (c :: t))
  have hne : (splitNumber (c :: t)).1 ≠ [] := by
    simp only [splitNumber]
    split
    · simp
    · next rest hr =>
      by_cases hd : c.isDigit = true
      · simp [hd]
      · obtain rfl : c = '.' := by simpa [startsNumber, hd] using h
        exact absurd rfl (hr t)
  have := List.length_pos_iff.mpr hne
  simp only [List.length_append] at hlen
  omega

/-- The number nearest to a literal; a point without digits is no number. -/
def literalValue? (literal : Text) : Option Binary64 :=
  let fraction := (literal.dropWhile Char.isDigit).drop 1
  let digits := literal.takeWhile Char.isDigit ++ fraction
  if digits.isEmpty then none
  else some (Binary64.ofDecimal (Text.digitsValue digits) fraction.length)

/-- The tokens of a text that starts at a position, after the tokens already found (newest
first). -/
def scanFrom (position : Nat) (found : List Token) : Text → Except SyntaxError (List Token)
  | [] => .ok found.reverse
  | c :: t =>
    if isBlank c then scanFrom (position + 1) found t
    else
      match symbolOf? c with
      | some symbol => scanFrom (position + 1) (⟨symbol, position⟩ :: found) t
      | none =>
        if _h : startsNumber c then
          let literal := (splitNumber (c :: t)).1
          match literalValue? literal with
          | some value =>
            scanFrom (position + literal.length) (⟨.number value, position⟩ :: found)
              (splitNumber (c :: t)).2
          | none => .error (.invalidNumber literal)
        else .error (.unknownChar c)
termination_by t => t.length
decreasing_by
  · simp
  · simp
  · exact splitNumber_shorter t _h

def scan (t : Text) : Except SyntaxError (List Token) :=
  scanFrom 0 [] t

end Token

end KeypadCalculator
