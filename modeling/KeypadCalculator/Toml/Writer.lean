import KeypadCalculator.Toml.Quoted

/-!
Writing a string in the plainest kind of quotes that can hold it.
-/

namespace KeypadCalculator.Toml

inductive StringStyle where
  | basic
  | literal
  | multiBasic
  | multiLiteral
  deriving DecidableEq

/-- A control character that only an escape can write. -/
def needsEscape (c : Char) : Bool :=
  !isPlain c && c != '\n'

/-- The length of the longest run of a character; the first number is that of the run so far. -/
def longestRunFrom (c : Char) (current longest : Nat) : Text → Nat
  | [] => longest
  | d :: t =>
    if d = c then longestRunFrom c (current + 1) (max longest (current + 1)) t
    else longestRunFrom c 0 longest t

def longestRun (c : Char) (t : Text) : Nat :=
  longestRunFrom c 0 0 t

/-- Escapes are the last resort. Without them, three quotes in a row would end a string on several
lines, and one would end a string on one line. -/
def styleOf (t : Text) : StringStyle :=
  let multiLine := t.contains '\n'
  if t.any needsEscape then if multiLine then .multiBasic else .basic
  else if !t.contains '\\' && !multiLine && !t.contains '"' then .basic
  else if !multiLine && !t.contains '\'' then .literal
  else if !t.contains '\\' && longestRun '"' t ≤ 2 then .multiBasic
  else if longestRun '\'' t ≤ 2 then .multiLiteral
  else if multiLine then .multiBasic
  else .basic

def upperHexDigit (n : Nat) : Char :=
  (Nat.digitChar n).toUpper

/-- A character other than a quote in a basic string. -/
def escape (c : Char) : Text :=
  match c with
  | '\x08' => ['\\', 'b']
  | '\t' => ['\\', 't']
  | '\n' => ['\\', 'n']
  | '\x0c' => ['\\', 'f']
  | '\r' => ['\\', 'r']
  | '\\' => ['\\', '\\']
  | c =>
    if isPlain c then [c]
    else ['\\', 'u', '0', '0', upperHexDigit (c.toNat / 16), upperHexDigit (c.toNat % 16)]

def escapeInLine (c : Char) : Text :=
  if c = '"' then ['\\', '"'] else escape c

/-- The content of a basic string on several lines, after so many quotes in a row. The third quote in
a row is escaped. -/
def escapeLines (quotes : Nat) : Text → Text
  | [] => []
  | '"' :: t =>
    if quotes = 2 then '\\' :: '"' :: escapeLines 0 t else '"' :: escapeLines (quotes + 1) t
  | '\n' :: t => '\n' :: escapeLines 0 t
  | c :: t => escape c ++ escapeLines 0 t

/-- Three quotes, with a line break behind them if the string has line breaks of its own: a reader
drops that one, and no other. -/
def openLines (quote : Char) (t : Text) : Text :=
  if t.contains '\n' then [quote, quote, quote, '\n'] else [quote, quote, quote]

def quote (t : Text) : Text :=
  match styleOf t with
  | .basic => '"' :: t.flatMap escapeInLine ++ ['"']
  | .literal => '\'' :: t ++ ['\'']
  | .multiBasic => openLines '"' t ++ escapeLines 0 t ++ ['"', '"', '"']
  | .multiLiteral => openLines '\'' t ++ t ++ ['\'', '\'', '\'']

end KeypadCalculator.Toml
