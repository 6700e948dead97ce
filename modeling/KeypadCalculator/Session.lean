import KeypadCalculator.Keypad
import KeypadCalculator.Settings
import KeypadCalculator.Text.Utf8

/-!
Interactive sessions. Each input line is a command or a run of key presses, and is answered by what
the display then shows.
-/

namespace KeypadCalculator.Session

/-- The key presses that a line stands for, or nothing if it asks to leave. -/
def actions? (line : Text) : Option (List Action) :=
  let keys := line.trim
  if keys = ":quit".toList ∨ keys = ":q".toList then none
  else if keys = ":clear".toList then some [.clear]
  else if keys = ":del".toList then some [.erase]
  else if keys = [] then some [.evaluate]
  else some (keys.filterMap Action.ofGlyph?)

/-- A calculator in the middle of a line, with the text that the line last evaluated. -/
structure Progress where
  evaluated : Option Text
  calculator : Calculator
  deriving DecidableEq

namespace Progress

/-- A blank text is not evaluated at all. -/
def evaluate (p : Progress) : Progress :=
  if p.calculator.text.isBlank then { p with evaluated := none }
  else ⟨some p.calculator.text, p.calculator.press .evaluate⟩

def press (p : Progress) (action : Action) : Progress :=
  if action = .evaluate then p.evaluate else { p with calculator := p.calculator.press action }

end Progress

inductive Answer where
  | shown (evaluated : Option Text) (display : Text)
  | quit
  deriving DecidableEq

/-- The answer to a line and the calculator after it. -/
def answer (c : Calculator) (line : Text) : Answer × Calculator :=
  match actions? line with
  | none => (.quit, c)
  | some actions =>
    let p := actions.foldl Progress.press ⟨none, c⟩
    (.shown p.evaluated p.calculator.display, p.calculator)

def start (s : Settings) : Calculator :=
  .withPrecision s.precision.toNat

/-- What ended a session before its input ended or it was left. -/
inductive Fault where
  | notUtf8
  deriving DecidableEq

def Fault.message : Fault → Text
  | notUtf8 => "stream did not contain valid UTF-8".toList

/-- What a session does on one line of input. -/
inductive Turn where
  | fault (why : Fault)
  | quit
  | reply (output : Text) (calculator : Calculator)
  deriving DecidableEq

/-- The expression, if it is wanted and there is one, then the display, then the next prompt. -/
def reply (s : Settings) (evaluated : Option Text) (display : Text) : Text :=
  let echo :=
    match s.echoExpression, evaluated with
    | true, some expression => expression ++ " =\n".toList
    | _, _ => []
  echo ++ display ++ '\n' :: s.prompt

def turn (s : Settings) (c : Calculator) (line : List UInt8) : Turn :=
  match Text.ofBytes? line with
  | none => .fault .notUtf8
  | some line =>
    match answer c line with
    | (.quit, _) => .quit
    | (.shown evaluated display, after) => .reply (reply s evaluated display) after

def newline : UInt8 := 10

def carriageReturn : UInt8 := 13

/-- The bytes of a complete line, less the carriage return that belongs to its line break. -/
def withoutReturn (line : List UInt8) : List UInt8 :=
  if line.getLast? = some carriageReturn then line.dropLast else line

/-- The first line and the bytes behind it. The last line may lack its line break, and without any
bytes there is no line. -/
def nextLine? : List UInt8 → Option (List UInt8 × List UInt8)
  | [] => none
  | input@(_ :: _) =>
    match input.dropWhile (· != newline) with
    | [] => some (input, [])
    | _ :: rest => some (withoutReturn (input.takeWhile (· != newline)), rest)

theorem nextLine?_shorter {input line rest : List UInt8}
    (h : nextLine? input = some (line, rest)) : rest.length < input.length := by
  have hlen := congrArg List.length
    (List.takeWhile_append_dropWhile (p := (· != newline)) (l := input))
  cases input with
  | nil => simp [nextLine?] at h
  | cons b bs =>
    simp only [nextLine?] at h
    split at h <;> grind

/-- All output of a session, and the fault that ended it, if one did. -/
structure Transcript where
  output : Text
  fault : Option Fault
  deriving DecidableEq

/-- The session from here on, after output that comes newest piece first. -/
def resume (s : Settings) (written : List Text) (c : Calculator) (input : List UInt8) :
    Transcript :=
  match _h : nextLine? input with
  | none => ⟨written.reverse.flatten, none⟩
  | some (line, rest) =>
    match turn s c line with
    | .fault why => ⟨written.reverse.flatten, some why⟩
    | .quit => ⟨written.reverse.flatten, none⟩
    | .reply output after => resume s (output :: written) after rest
termination_by input.length
decreasing_by exact nextLine?_shorter _h

/-- A session over all of its input, from the first prompt on. -/
def run (s : Settings) (input : List UInt8) : Transcript :=
  resume s [s.prompt] (start s) input

end KeypadCalculator.Session
