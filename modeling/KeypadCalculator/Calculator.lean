import KeypadCalculator.Expression.Evaluation

/-!
The calculator behind the keypad. It holds the text being typed and answers what the display shows;
evaluation puts the result in place of the text.
-/

namespace KeypadCalculator

/-- The text being typed, newest character first, so that typing costs the same at any length. -/
structure Buffer where
  newestFirst : Text
  deriving DecidableEq

namespace Buffer

def empty : Buffer := ⟨[]⟩

def ofText (t : Text) : Buffer :=
  ⟨t.reverse⟩

def text (b : Buffer) : Text :=
  b.newestFirst.reverse

@[simp] theorem text_ofText (t : Text) : (ofText t).text = t := by
  simp [text, ofText]

@[simp] theorem ofText_text (b : Buffer) : ofText b.text = b := by
  simp [text, ofText]

def push (b : Buffer) (c : Char) : Buffer :=
  ⟨c :: b.newestFirst⟩

@[simp] theorem text_push (b : Buffer) (c : Char) : (b.push c).text = b.text ++ [c] := by
  simp [text, push]

/-- The buffer without its last character. -/
def dropLast (b : Buffer) : Buffer :=
  ⟨b.newestFirst.tail⟩

@[simp] theorem text_dropLast (b : Buffer) : b.dropLast.text = b.text.dropLast := by
  simp [text, dropLast]

/-- Characters that end the number being typed. -/
def endsNumber (c : Char) : Bool :=
  c ∈ ['+', '-', '*', '/', '(', ')']

/-- What has been typed since the last operator or parenthesis, newest first. -/
def segment (b : Buffer) : Text :=
  b.newestFirst.takeWhile fun c => !endsNumber c

/-- Types one character. A zero on a lone zero is dropped, and so is a second point in one segment;
a point that opens a segment gets a zero before it. -/
def append (b : Buffer) (c : Char) : Buffer :=
  if c = '0' ∧ b.newestFirst = ['0'] then b
  else if c = '.' then
    if '.' ∈ b.segment then b
    else if b.segment = [] then (b.push '0').push '.'
    else b.push '.'
  else b.push c

end Buffer

/-- What a key press asks for. -/
inductive Action where
  | append (c : Char)
  | erase
  | clear
  | evaluate
  deriving DecidableEq

/-- Whether the text is being typed or has just been put there as a result. -/
inductive Mode where
  | editing
  | settled
  deriving DecidableEq

structure Calculator where
  buffer : Buffer
  failure : Option Failure
  mode : Mode
  precision : Nat
  deriving DecidableEq

namespace Calculator

/-- An empty calculator that rounds to this many decimal places, or to the most there can be. -/
def withPrecision (precision : Nat) : Calculator :=
  ⟨.empty, none, .editing, min precision maxPrecision⟩

def text (c : Calculator) : Text :=
  c.buffer.text

def display (c : Calculator) : Text :=
  if c.failure.isSome then "Error".toList
  else if c.text.isEmpty then ['0']
  else c.text

/-- Any edit leaves the failed and the settled state. -/
def edit (c : Calculator) (buffer : Buffer) : Calculator :=
  { c with buffer, failure := none, mode := .editing }

def append (c : Calculator) (typed : Char) : Calculator :=
  c.edit (c.buffer.append typed)

def typeText (c : Calculator) (t : Text) : Calculator :=
  t.foldl append c

def erase (c : Calculator) : Calculator :=
  c.edit c.buffer.dropLast

def clear (c : Calculator) : Calculator :=
  c.edit .empty

/-- Evaluates the text. A blank text has no result and changes nothing; a result replaces the text;
a failure shows on the display and empties the text unless it keeps it. -/
def evaluate (c : Calculator) : Except Failure (Option Binary64) × Calculator :=
  if c.text.isBlank then (.ok none, c)
  else
    match KeypadCalculator.evaluate c.text c.precision with
    | .ok value =>
      (.ok (some value), { c with buffer := .ofText value.text, failure := none, mode := .settled })
    | .error why =>
      let buffer := if why.keepsText then c.buffer else .empty
      (.error why, { c with buffer, failure := some why, mode := .editing })

def press (c : Calculator) : Action → Calculator
  | .append typed => c.append typed
  | .erase => c.erase
  | .clear => c.clear
  | .evaluate => c.evaluate.2

end Calculator

end KeypadCalculator
