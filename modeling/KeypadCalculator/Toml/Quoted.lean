import KeypadCalculator.Toml.Scalar

/-!
Quoted strings, of which there are four kinds: basic ones with escapes and literal ones without, each
on one line or on several. Readers start behind the opening quotes, collect the content newest first
and return it with the text behind the closing quotes.
-/

namespace KeypadCalculator.Toml

/-- Characters that may stand for themselves within a line: all but control characters, of which only
the tab may. -/
def isPlain (c : Char) : Bool :=
  c == '\t' || (0x20 ≤ c.toNat && c.toNat != 0x7F)

/-- The character with this number, in exactly `count` hexadecimal digits, and the rest. -/
def codePoint? (count : Nat) (t : Text) : Option (Char × Text) :=
  let digits := t.take count
  let n := baseValue 16 digits
  if digits.length = count ∧ digits.all (isBaseDigit 16) ∧ n.isValidChar then
    some (Char.ofNat n, t.drop count)
  else none

theorem codePoint?_length_le {count : Nat} {t rest : Text} {c : Char}
    (h : codePoint? count t = some (c, rest)) : rest.length ≤ t.length := by
  simp only [codePoint?] at h
  split at h
  · simp only [Option.some.injEq, Prod.mk.injEq] at h
    simp [← h.2]
  · simp at h

/-- The character that a single letter or mark stands for behind a backslash. -/
def namedEscape? : Char → Option Char
  | 'b' => some '\x08'
  | 't' => some '\t'
  | 'n' => some '\n'
  | 'f' => some '\x0c'
  | 'r' => some '\r'
  | 'e' => some '\x1b'
  | '"' => some '"'
  | '\\' => some '\\'
  | _ => none

/-- The character of an escape, read from behind its backslash. -/
def escape? : Text → Option (Char × Text)
  | [] => none
  | 'x' :: t => codePoint? 2 t
  | 'u' :: t => codePoint? 4 t
  | 'U' :: t => codePoint? 8 t
  | c :: t => (namedEscape? c).map fun c => (c, t)

theorem escape?_shorter {t rest : Text} {c : Char} (h : escape? t = some (c, rest)) :
    rest.length < t.length := by
  unfold escape? at h
  split at h
  · simp at h
  · exact Nat.lt_succ_of_le (codePoint?_length_le h)
  · exact Nat.lt_succ_of_le (codePoint?_length_le h)
  · exact Nat.lt_succ_of_le (codePoint?_length_le h)
  · obtain ⟨_, _, hr⟩ := Option.map_eq_some_iff.mp h
    simp [← (Prod.mk.inj hr).2]

/-- A basic string on one line. -/
def basic? (read : Text) : Text → Option (Text × Text)
  | [] => none
  | '"' :: t => some (read.reverse, t)
  | '\\' :: t =>
    match _h : escape? t with
    | some (c, rest) => basic? (c :: read) rest
    | none => none
  | c :: t => if isPlain c then basic? (c :: read) t else none
termination_by t => t.length
decreasing_by
  · have := escape?_shorter _h
    grind
  · simp

/-- A literal string on one line. -/
def literal? (read : Text) : Text → Option (Text × Text)
  | [] => none
  | '\'' :: t => some (read.reverse, t)
  | c :: t => if isPlain c then literal? (c :: read) t else none

/-- The text behind a line break, if it starts with one. -/
def skipNewline? : Text → Option Text
  | '\n' :: t => some t
  | '\r' :: '\n' :: t => some t
  | _ => none

/-- A line break behind opening quotes is not content. -/
def skipFirstNewline (t : Text) : Text :=
  (skipNewline? t).getD t

def isSpace (c : Char) : Bool :=
  c == ' ' || c == '\t'

def skipSpaces (t : Text) : Text :=
  t.dropWhile isSpace

/-- Skips blanks and line breaks. -/
def skipLines : Text → Text
  | ' ' :: t => skipLines t
  | '\t' :: t => skipLines t
  | '\n' :: t => skipLines t
  | '\r' :: '\n' :: t => skipLines t
  | t => t

theorem skipLines_length_le (t : Text) : (skipLines t).length ≤ t.length := by
  fun_induction skipLines t <;> grind

theorem skipNewline?_shorter {t rest : Text} (h : skipNewline? t = some rest) :
    rest.length < t.length := by
  unfold skipNewline? at h
  split at h <;> grind

/-- What follows a backslash at the end of a line, which joins the line with the next text. -/
def joinedLine? (t : Text) : Option Text :=
  (skipNewline? (skipSpaces t)).map skipLines

theorem joinedLine?_shorter {t rest : Text} (h : joinedLine? t = some rest) :
    rest.length < t.length := by
  obtain ⟨u, hu, rfl⟩ := Option.map_eq_some_iff.mp h
  have h₁ := skipNewline?_shorter hu
  have h₂ := skipLines_length_le u
  have h₃ := (List.dropWhile_sublist (l := t) isSpace).length_le
  simp only [skipSpaces] at h₁
  omega

/-- Up to two quotes directly before the three closing ones are content. The arguments start behind
three quotes. -/
def closing (quote : Char) (read : Text) (t : Text) : Text × Text :=
  let more := (t.take 2).takeWhile (· == quote)
  ((more ++ read).reverse, t.drop more.length)

/-- A basic string on several lines. -/
def multiBasic? (read : Text) : Text → Option (Text × Text)
  | [] => none
  | '"' :: '"' :: '"' :: t => some (closing '"' read t)
  | '\\' :: t =>
    match _h : joinedLine? t with
    | some rest => multiBasic? read rest
    | none =>
      match _h : escape? t with
      | some (c, rest) => multiBasic? (c :: read) rest
      | none => none
  | '\r' :: '\n' :: t => multiBasic? ('\n' :: '\r' :: read) t
  | c :: t => if isPlain c || c == '\n' then multiBasic? (c :: read) t else none
termination_by t => t.length
decreasing_by
  · have := joinedLine?_shorter _h
    grind
  · have := escape?_shorter _h
    grind
  · grind
  · simp

/-- A literal string on several lines. -/
def multiLiteral? (read : Text) : Text → Option (Text × Text)
  | [] => none
  | '\'' :: '\'' :: '\'' :: t => some (closing '\'' read t)
  | '\r' :: '\n' :: t => multiLiteral? ('\n' :: '\r' :: read) t
  | c :: t => if isPlain c || c == '\n' then multiLiteral? (c :: read) t else none

/-- A string of any kind, from its opening quotes on. -/
def quoted? : Text → Option (Text × Text)
  | '"' :: '"' :: '"' :: t => multiBasic? [] (skipFirstNewline t)
  | '\'' :: '\'' :: '\'' :: t => multiLiteral? [] (skipFirstNewline t)
  | '"' :: t => basic? [] t
  | '\'' :: t => literal? [] t
  | _ => none

end KeypadCalculator.Toml
