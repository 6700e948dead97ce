import KeypadCalculator.Binary64.Basic
import KeypadCalculator.Toml.Table

/-!
Values that are written without quotes or brackets: booleans, integers, floats, dates and times.
-/

namespace KeypadCalculator.Toml

/-- Digits without the underscores that may stand between two of them. -/
def ungroup? (isDigit : Char → Bool) : Text → Option Text
  | [] => none
  | [c] => if isDigit c then some [c] else none
  | c :: '_' :: t => if isDigit c then (ungroup? isDigit t).map (c :: ·) else none
  | c :: t => if isDigit c then (ungroup? isDigit t).map (c :: ·) else none

/-- Decimal digits with no zero before another digit. -/
def decimalDigits? (t : Text) : Option Text :=
  match ungroup? Char.isDigit t with
  | some ('0' :: _ :: _) => none
  | digits => digits

def hexDigit? (c : Char) : Option Nat :=
  if c.isDigit then some (c.toNat - 0x30)
  else if 'a' ≤ c ∧ c ≤ 'f' then some (c.toNat - 0x61 + 10)
  else if 'A' ≤ c ∧ c ≤ 'F' then some (c.toNat - 0x41 + 10)
  else none

/-- The number with these digits in a base up to sixteen. -/
def baseValue (base : Nat) (digits : Text) : Nat :=
  digits.foldl (fun n c => base * n + (hexDigit? c).getD 0) 0

def isBaseDigit (base : Nat) (c : Char) : Bool :=
  match hexDigit? c with
  | some d => d < base
  | none => false

def baseInteger? (base : Nat) (t : Text) : Option Int :=
  (ungroup? (isBaseDigit base) t).map fun digits => (baseValue base digits : Int)

def decimalInteger? (t : Text) : Option Int :=
  match t with
  | '-' :: t => (decimalDigits? t).map fun digits => -(Text.digitsValue digits : Int)
  | '+' :: t => (decimalDigits? t).map fun digits => (Text.digitsValue digits : Int)
  | t => (decimalDigits? t).map fun digits => (Text.digitsValue digits : Int)

/-- An integer of any width up to 128 bits, signed or not. -/
def integer? (t : Text) : Option Int :=
  let n? :=
    match t with
    | '0' :: 'x' :: t => baseInteger? 16 t
    | '0' :: 'o' :: t => baseInteger? 8 t
    | '0' :: 'b' :: t => baseInteger? 2 t
    | t => decimalInteger? t
  n?.filter fun n => -(Nat.pow 2 127 : Int) ≤ n ∧ n < (Nat.pow 2 128 : Int)

def unsigned (t : Text) : Text :=
  match t with
  | '+' :: t => t
  | '-' :: t => t
  | t => t

def exponent? (t : Text) : Option Int :=
  (ungroup? Char.isDigit (unsigned t)).map fun digits =>
    if t.head? = some '-' then -(Text.digitsValue digits : Int) else (Text.digitsValue digits : Int)

/-- Whether `digits * 10^(exponent - places)` rounds to a finite number. Only a leading place near
that of the largest finite number needs the exact product. -/
def isFiniteFloat (digits : Text) (places : Nat) (exponent : Int) : Bool :=
  let coefficient := Text.digitsValue digits
  let shift := exponent - places
  let leading := shift + (Text.numeral coefficient).length
  if coefficient = 0 ∨ leading < 300 then true
  else if 400 < leading then false
  else (Binary64.ofDecimal (coefficient * Nat.pow 10 shift.toNat) (-shift).toNat).isFinite

/-- A decimal with a fraction, an exponent, or both. One too large for any number is refused. -/
def isFloat (t : Text) : Bool :=
  let t := unsigned t
  let isMark (c : Char) : Bool := c == 'e' || c == 'E'
  let mantissa := t.takeWhile fun c => !isMark c
  let fraction? :=
    match mantissa.dropWhile (· != '.') with
    | [] => some []
    | _ :: fraction => ungroup? Char.isDigit fraction
  let exponent? :=
    match t.dropWhile fun c => !isMark c with
    | [] => some 0
    | _ :: exponent => exponent? exponent
  match decimalDigits? (mantissa.takeWhile (· != '.')), fraction?, exponent? with
  | some whole, some fraction, some exponent =>
    (t.any fun c => c == '.' || isMark c) &&
      isFiniteFloat (whole ++ fraction) fraction.length exponent
  | _, _, _ => false

/-- The floats that are no decimals. -/
def isSpecialFloat (t : Text) : Bool :=
  unsigned t = "inf".toList || unsigned t = "nan".toList

/-- A number of exactly this many digits, and the rest. -/
def fixedDigits? (count : Nat) (t : Text) : Option (Nat × Text) :=
  let digits := t.take count
  if digits.length = count ∧ digits.all Char.isDigit then
    some (Text.digitsValue digits, t.drop count)
  else none

def skip? (c : Char) : Text → Option Text
  | [] => none
  | d :: t => if d = c then some t else none

def isLeapYear (year : Nat) : Bool :=
  year % 4 == 0 && (year % 100 != 0 || year % 400 == 0)

def daysIn (year month : Nat) : Nat :=
  if month = 2 then if isLeapYear year then 29 else 28
  else if month ∈ [4, 6, 9, 11] then 30
  else 31

/-- What follows a date `2000-12-31`. -/
def afterDate? (t : Text) : Option Text := do
  let (year, t) ← fixedDigits? 4 t
  let (month, t) ← fixedDigits? 2 (← skip? '-' t)
  let (day, t) ← fixedDigits? 2 (← skip? '-' t)
  if 1 ≤ month ∧ month ≤ 12 ∧ 1 ≤ day ∧ day ≤ daysIn year month then some t else none

/-- What follows hours and minutes `23:59`. -/
def afterMinutes? (t : Text) : Option Text := do
  let (hour, t) ← fixedDigits? 2 t
  let (minute, t) ← fixedDigits? 2 (← skip? ':' t)
  if hour ≤ 23 ∧ minute ≤ 59 then some t else none

/-- What follows the seconds of a time, which may have a fraction; or all, if there are none. -/
def afterSeconds? (t : Text) : Option Text :=
  match t with
  | ':' :: t =>
    match fixedDigits? 2 t with
    | some (second, t) =>
      if 60 < second then none
      else
        match t with
        | '.' :: t => if (t.takeWhile Char.isDigit).isEmpty then none else t.dropWhile Char.isDigit
        | t => some t
    | none => none
  | t => some t

def afterTime? (t : Text) : Option Text :=
  (afterMinutes? t).bind afterSeconds?

/-- A time zone: none, the zero one, or hours and minutes. -/
def isOffset : Text → Bool
  | [] => true
  | ['Z'] => true
  | ['z'] => true
  | c :: t => (c == '+' || c == '-') && afterMinutes? t == some []

/-- A date, a time, or both. -/
def isMoment (t : Text) : Bool :=
  match afterDate? t with
  | some [] => true
  | some (c :: t) =>
    (c == 'T' || c == 't' || c == ' ') &&
      match afterTime? t with
      | some zone => isOffset zone
      | none => false
  | none => afterTime? t == some []

/-- The value that a word writes. -/
def scalar? (word : Text) : Option Value :=
  if word = "true".toList then some (.boolean true)
  else if word = "false".toList then some (.boolean false)
  else
    match integer? word with
    | some n => some (.integer n)
    | none =>
      if isSpecialFloat word || isFloat word || isMoment word then some .other else none

def isWordChar (c : Char) : Bool :=
  c.isAlphanum || c ∈ ['+', '-', '_', '.', ':']

/-- The word that a text starts with, and the rest. A blank between a date and a time belongs to the
word. -/
def splitWord (t : Text) : Text × Text :=
  let word := t.takeWhile isWordChar
  match t.dropWhile isWordChar with
  | ' ' :: c :: rest =>
    if c.isDigit && afterDate? word == some [] then
      (word ++ ' ' :: (c :: rest).takeWhile isWordChar, (c :: rest).dropWhile isWordChar)
    else (word, ' ' :: c :: rest)
  | rest => (word, rest)

end KeypadCalculator.Toml
