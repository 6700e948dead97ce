import KeypadCalculator.Expression.Token

/-!
Evaluation of arithmetic text by recursive descent. Values are folded while tokens are consumed:

    sum     := product (('+' | '-') product)*
    product := signed (('*' | '/') signed)*
    signed  := ('+' | '-')* operand
    operand := number | '(' sum ')'

Chains of operators and signs are loops. Only parentheses nest, and no more than `maxDepth` deep.
-/

namespace KeypadCalculator.Parser

/-- The tokens still to be read, and how many parentheses are open around them. -/
structure Cursor where
  rest : List Token
  depth : Nat
  deriving DecidableEq

def maxDepth : Nat := 256

/-- A value and the cursor behind its text, which has fewer than `n` tokens left. -/
abbrev Reading (n : Nat) := Except SyntaxError (Binary64 × { c : Cursor // c.rest.length < n })

/-- Skips a run of signs. The result is negative after an odd number of minus signs. -/
def skipSigns (negative : Bool) : List Token → Bool × List Token
  | ⟨.minus, _⟩ :: rest => skipSigns (!negative) rest
  | ⟨.plus, _⟩ :: rest => skipSigns negative rest
  | rest => (negative, rest)

theorem skipSigns_length_le (negative : Bool) (ts : List Token) :
    (skipSigns negative ts).2.length ≤ ts.length := by
  fun_induction skipSigns negative ts <;> grind

mutual

def sum (c : Cursor) : Reading c.rest.length :=
  match product c with
  | .error e => .error e
  | .ok (value, d) => sumRest value d.1 d.2
termination_by 5 * c.rest.length + 4
decreasing_by
  · omega
  · have := d.2
    omega

/-- Adds and subtracts what follows to the value read so far. -/
def sumRest {n : Nat} (left : Binary64) (c : Cursor) (h : c.rest.length < n) : Reading n :=
  match hc : c.rest with
  | ⟨.plus, _⟩ :: rest =>
    match product ⟨rest, c.depth⟩ with
    | .error e => .error e
    | .ok (right, d) => sumRest (left + right) d.1 (by grind)
  | ⟨.minus, _⟩ :: rest =>
    match product ⟨rest, c.depth⟩ with
    | .error e => .error e
    | .ok (right, d) => sumRest (left - right) d.1 (by grind)
  | _ => .ok (left, ⟨c, h⟩)
termination_by 5 * c.rest.length
decreasing_by
  · grind
  · have := d.2
    grind
  · grind
  · have := d.2
    grind

def product (c : Cursor) : Reading c.rest.length :=
  match signed c with
  | .error e => .error e
  | .ok (value, d) => productRest value d.1 d.2
termination_by 5 * c.rest.length + 3
decreasing_by
  · omega
  · have := d.2
    omega

/-- Multiplies and divides the value read so far by what follows. -/
def productRest {n : Nat} (left : Binary64) (c : Cursor) (h : c.rest.length < n) : Reading n :=
  match hc : c.rest with
  | ⟨.times, _⟩ :: rest =>
    match signed ⟨rest, c.depth⟩ with
    | .error e => .error e
    | .ok (right, d) => productRest (left * right) d.1 (by grind)
  | ⟨.divide, _⟩ :: rest =>
    match signed ⟨rest, c.depth⟩ with
    | .error e => .error e
    | .ok (right, d) => productRest (left / right) d.1 (by grind)
  | _ => .ok (left, ⟨c, h⟩)
termination_by 5 * c.rest.length
decreasing_by
  · grind
  · have := d.2
    grind
  · grind
  · have := d.2
    grind

def signed (c : Cursor) : Reading c.rest.length :=
  let signs := skipSigns false c.rest
  match operand ⟨signs.2, c.depth⟩ with
  | .error e => .error e
  | .ok (value, d) =>
    .ok (if signs.1 then -value else value,
      ⟨d.1, Nat.lt_of_lt_of_le d.2 (skipSigns_length_le false c.rest)⟩)
termination_by 5 * c.rest.length + 2
decreasing_by
  have := skipSigns_length_le false c.rest
  grind

def operand (c : Cursor) : Reading c.rest.length :=
  match hc : c.rest with
  | [] => .error .unexpectedEnd
  | ⟨.number value, _⟩ :: rest => .ok (value, ⟨⟨rest, c.depth⟩, by simp⟩)
  | ⟨.opening, _⟩ :: rest =>
    if maxDepth < c.depth + 1 then .error (.tooDeep maxDepth)
    else
      match sum ⟨rest, c.depth + 1⟩ with
      | .error e => .error e
      | .ok (value, d) =>
        match hd : d.1.rest with
        | [] => .error .unexpectedEnd
        | ⟨.closing, _⟩ :: after => .ok (value, ⟨⟨after, d.1.depth - 1⟩, by have := d.2; grind⟩)
        | token :: _ => .error (.unexpected token)
  | token :: _ => .error (.unexpected token)
termination_by 5 * c.rest.length + 1
decreasing_by grind

end

/-- The value of a whole list of tokens. -/
def value (tokens : List Token) : Except SyntaxError Binary64 :=
  match sum ⟨tokens, 0⟩ with
  | .error e => .error e
  | .ok (value, d) =>
    match d.1.rest with
    | [] => .ok value
    | token :: _ => .error (.unexpected token)

/-- The value of a text. Scanning comes first, so its faults win over those of the grammar. -/
def valueOfText (t : Text) : Except SyntaxError Binary64 :=
  match Token.scan t with
  | .error e => .error e
  | .ok tokens => value tokens

end KeypadCalculator.Parser
