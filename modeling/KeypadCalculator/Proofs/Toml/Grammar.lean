import Mathlib.Data.Int.Notation
import Mathlib.Data.List.Forall2
import KeypadCalculator.Toml.Reader

/-!
The grammar of entries in a TOML document, with what they say: integers, booleans and strings of all
kinds, and the lines that give them to keys.
-/

namespace KeypadCalculator.Toml

/-- A digit and what it counts. Letters may be of either case. -/
def IsDigit (base d : ℕ) (c : Char) : Prop :=
  d < base ∧ (c = Nat.digitChar d ∨ c = (Nat.digitChar d).toUpper)

/-- Digits with single underscores between some of them. -/
inductive Grouped (base : ℕ) : List ℕ → Text → Prop
  | single {d c} : IsDigit base d c → Grouped base [d] [c]
  | next {d c ds t} : IsDigit base d c → Grouped base ds t → Grouped base (d :: ds) (c :: t)
  | underscore {d c ds t} : IsDigit base d c → Grouped base ds t →
      Grouped base (d :: ds) (c :: '_' :: t)

/-- The number with these digits, the highest in front. -/
def number (base : ℕ) (ds : List ℕ) : ℕ :=
  ds.foldl (fun n d => base * n + d) 0

/-- A number in decimal digits. Only a lone zero starts with a zero. -/
inductive Natural : ℕ → Text → Prop
  | intro {ds t} : Grouped 10 ds t → (ds.head? = some 0 → ds = [0]) → Natural (number 10 ds) t

/-- Only decimal digits may have a sign. -/
inductive Integer : ℤ → Text → Prop
  | unsigned {n t} : Natural n t → Integer n t
  | positive {n t} : Natural n t → Integer n ('+' :: t)
  | negative {n t} : Natural n t → Integer (-(n : ℤ)) ('-' :: t)
  | based {mark base ds t} : (mark, base) ∈ [('x', 16), ('o', 8), ('b', 2)] → Grouped base ds t →
      Integer (number base ds) ('0' :: mark :: t)

/-- Integers of 128 bits, with a sign or without. -/
def Fits (z : ℤ) : Prop := -(Nat.pow 2 127 : ℤ) ≤ z ∧ z < (Nat.pow 2 128 : ℤ)

instance (z : ℤ) : Decidable (Fits z) :=
  inferInstanceAs (Decidable (_ ∧ _))

/-- What may stand for a character behind a backslash: a mark of its own, or its number. -/
inductive Escaped (c : Char) : Text → Prop
  | named {mark} :
      (mark, c) ∈ [('b', '\x08'), ('t', '\t'), ('n', '\n'), ('f', '\x0c'), ('r', '\r'),
        ('e', '\x1b'), ('"', '"'), ('\\', '\\')] → Escaped c [mark]
  | numbered {mark count ds t} : (mark, count) ∈ [('x', 2), ('u', 4), ('U', 8)] →
      t.length = count → List.Forall₂ (IsDigit 16) ds t → number 16 ds = c.toNat →
        Escaped c (mark :: t)

/-- What may stand for a character in a basic string. -/
inductive Letter (c : Char) : Text → Prop
  | plain : isPlain c = true → c ≠ '"' → c ≠ '\\' → Letter c [c]
  | escaped {e} : Escaped c e → Letter c ('\\' :: e)

inductive Letters : Text → Text → Prop
  | nil : Letters [] []
  | cons {c t u v} : Letter c u → Letters t v → Letters (c :: t) (u ++ v)

inductive Break : Text → Prop
  | lineFeed : Break ['\n']
  | carriageReturn : Break ['\r', '\n']

/-- Blanks and line breaks. -/
inductive Gap : Text → Prop
  | nil : Gap []
  | space {c t} : isSpace c = true → Gap t → Gap (c :: t)
  | break {b t} : Break b → Gap t → Gap (b ++ t)

/-- What may stand for a part of a basic string on several lines, and in front of what. Behind a
backslash at the end of a line nothing is said up to the next mark. -/
inductive BasicPart : Text → Text → Text → Prop
  | letter {c u after} : Letter c u → BasicPart [c] u after
  | break {b after} : Break b → BasicPart b b after
  | joined {w b gap after} : (∀ c ∈ w, isSpace c = true) → Break b → Gap gap →
      (∀ c ∈ after.head?, c ∉ [' ', '\t', '\n', '\r']) →
        BasicPart [] ('\\' :: (w ++ (b ++ gap))) after

inductive LiteralPart : Text → Text → Text → Prop
  | plain {c after} : isPlain c = true → c ≠ '\'' → LiteralPart [c] [c] after
  | break {b after} : Break b → LiteralPart b b after

section Fences

variable (q : Char) (Part : Text → Text → Text → Prop)

/-- What may stand between fences of three quotes, behind some quotes in a row. No more than two in
a row are content. -/
inductive Parts : ℕ → Text → Text → Prop
  | nil {n} : Parts n [] []
  | quote {n t u} : n < 2 → Parts (n + 1) t u → Parts n (q :: t) (q :: u)
  | part {n s w t u} : Part s w u → Parts 0 t u → Parts n (s ++ t) (w ++ u)

/-- A line break behind the first fence says nothing. -/
inductive Fence : Text → Text → Prop
  | open {t u} : (∀ c ∈ u.head?, c ≠ '\n' ∧ c ≠ '\r') → Parts q Part 0 t u →
      Fence t ([q, q, q] ++ (u ++ [q, q, q]))
  | break {b t u} : Break b → Parts q Part 0 t u → Fence t ([q, q, q] ++ (b ++ (u ++ [q, q, q])))

end Fences

inductive Quoted : Text → Text → Prop
  | basic {t u} : Letters t u → Quoted t ('"' :: (u ++ ['"']))
  | literal {t} : (∀ c ∈ t, isPlain c = true ∧ c ≠ '\'') → Quoted t ('\'' :: (t ++ ['\'']))
  | basicLines {t u} : Fence '"' BasicPart t u → Quoted t u
  | literalLines {t u} : Fence '\'' LiteralPart t u → Quoted t u

inductive Scalar : Value → Text → Prop
  | integer {n t} : Integer n t → Scalar (.integer n) t
  | true : Scalar (.boolean true) "true".toList
  | false : Scalar (.boolean false) "false".toList
  | text {t u} : Quoted t u → Scalar (.text t) u

/-- The values that can be read: all but integers that are too large. -/
def Value.Fits : Value → Prop
  | .integer z => Toml.Fits z
  | _ => True

instance : DecidablePred Value.Fits
  | .integer z => inferInstanceAs (Decidable (Toml.Fits z))
  | .text _ => .isTrue trivial
  | .boolean _ => .isTrue trivial
  | .other => .isTrue trivial
  | .table _ _ => .isTrue trivial
  | .tables _ => .isTrue trivial

structure IsBareKey (key : Text) : Prop where
  nonempty : key ≠ []
  bare : key.all isBareKeyChar

/-- A key and its value, with an equals sign between them that may have blanks around it. -/
inductive Entry : Text × Value → Text → Prop
  | intro {key v w w' t} : IsBareKey key → (∀ c ∈ w, isSpace c = true) →
      (∀ c ∈ w', isSpace c = true) → Scalar v t → Entry (key, v) (key ++ (w ++ '=' :: (w' ++ t)))

/-- Entries one behind the other, each on a line of its own. The last line may lack its break. -/
inductive Entries : Table → Text → Prop
  | nil : Entries [] []
  | last {e t} : Entry e t → Entries [e] t
  | line {e t b es u} : Entry e t → Break b → Entries es u → Entries (e :: es) (t ++ (b ++ u))

end KeypadCalculator.Toml
