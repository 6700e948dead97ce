/-!
Text as a list of characters, the blanks that separate and surround it, and the runs that are read
from the front of it.
-/

namespace KeypadCalculator

abbrev Text := List Char

/-- The white space of Unicode, line breaks included. -/
def isBlank (c : Char) : Bool :=
  let n := c.toNat
  (0x9 ≤ n && n ≤ 0xD) || n == 0x20 || n == 0x85 || n == 0xA0 || n == 0x1680 ||
    (0x2000 ≤ n && n ≤ 0x200A) || n == 0x2028 || n == 0x2029 || n == 0x202F ||
    n == 0x205F || n == 0x3000

section Runs

variable {α : Type} {p : α → Bool} {l t : List α}

/-- A reader that takes what it can takes just a run, and stops in front of what it cannot take. -/
theorem takeWhile_dropWhile_append (hl : ∀ a ∈ l, p a = true) (ht : ∀ a ∈ t.head?, p a = false) :
    (l ++ t).takeWhile p = l ∧ (l ++ t).dropWhile p = t := by
  rw [List.takeWhile_append_of_pos hl, List.dropWhile_append_of_pos hl]
  cases t with
  | nil => exact ⟨List.append_nil l, rfl⟩
  | cons a t => simp [ht a rfl]

theorem head?_dropWhile (p : α → Bool) (l : List α) : ∀ a ∈ (l.dropWhile p).head?, p a = false := by
  intro a ha
  have h := List.head?_dropWhile_not p l
  rw [Option.mem_def.mp ha] at h
  simpa using h

end Runs

namespace Text

/-- Nothing but blanks, or nothing at all. -/
def isBlank (t : Text) : Bool :=
  t.all KeypadCalculator.isBlank

def trim (t : Text) : Text :=
  ((t.dropWhile KeypadCalculator.isBlank).reverse.dropWhile KeypadCalculator.isBlank).reverse

/-- The decimal numeral of a natural number, without leading zeros. -/
def numeral (n : Nat) : Text :=
  Nat.toDigits 10 n

/-- The number that a run of decimal digits denotes; leading zeros do not count. -/
def digitsValue (t : Text) : Nat :=
  Nat.ofDigitChars 10 t 0

theorem digitsValue_numeral (n : Nat) : digitsValue (numeral n) = n := by
  simp [digitsValue, numeral]

end Text

end KeypadCalculator
