import KeypadCalculator.Proofs.Binary64.Written
import KeypadCalculator.Toml.Scalar

/-!
The grammar of JSON texts, with what they say. A number in decimal text stands for the nearest one
there is.
-/

namespace KeypadCalculator.Json

/-- What a JSON text says. Members of an object stand in the order in which they are written. -/
inductive Value where
  | null
  | boolean (b : Bool)
  | number (x : Binary64)
  | text (t : Text)
  | array (items : List Value)
  | object (members : List (Text × Value))

def isSpace (c : Char) : Bool := decide (c ∈ [' ', '\t', '\n', '\r'])

def IsBlank (w : Text) : Prop := ∀ c ∈ w, isSpace c = true

theorem isBlank_nil : IsBlank [] := nofun

theorem isBlank_cons {c : Char} {w : Text} (hc : isSpace c = true) (hw : IsBlank w) :
    IsBlank (c :: w) :=
  List.forall_mem_cons.mpr ⟨hc, hw⟩

/-- The character that a single letter or mark stands for behind a backslash. -/
def namedEscape? : Char → Option Char
  | '"' => some '"'
  | '\\' => some '\\'
  | '/' => some '/'
  | 'b' => some '\x08'
  | 'f' => some '\x0c'
  | 'n' => some '\n'
  | 'r' => some '\r'
  | 't' => some '\t'
  | _ => none

def isPlain (c : Char) : Bool :=
  decide (0x20 ≤ c.toNat) && c != '"' && c != '\\'

/-- Four hexadecimal digits and the number they write. -/
structure IsCode (n : ℕ) (ds : Text) : Prop where
  length : ds.length = 4
  digits : ds.all (Toml.isBaseDigit 16) = true
  value : Toml.baseValue 16 ds = n

/-- A surrogate of the first kind and one of the second. -/
def AreSurrogates (n m : ℕ) : Prop := (0xD800 ≤ n ∧ n < 0xDC00) ∧ 0xDC00 ≤ m ∧ m < 0xE000

instance (n m : ℕ) : Decidable (AreSurrogates n m) :=
  inferInstanceAs (Decidable (_ ∧ _))

/-- The number of the character that two surrogates stand for. -/
def surrogatesValue (n m : ℕ) : ℕ := 0x10000 + 0x400 * (n - 0xD800) + (m - 0xDC00)

/-- What may stand in a string for a character: the character itself, or behind a backslash a name,
its number, or two surrogates. -/
inductive Letter (c : Char) : Text → Prop
  | plain : isPlain c = true → Letter c [c]
  | named {e} : namedEscape? e = some c → Letter c ['\\', e]
  | code {ds} : IsCode c.toNat ds → Letter c ('\\' :: 'u' :: ds)
  | surrogates {n m ds es} : IsCode n ds → IsCode m es → AreSurrogates n m →
      c.toNat = surrogatesValue n m → Letter c ('\\' :: 'u' :: (ds ++ '\\' :: 'u' :: es))

/-- What may stand in a string for a text. -/
inductive Letters : Text → Text → Prop
  | nil : Letters [] []
  | cons {c t u v} : Letter c u → Letters t v → Letters (c :: t) (u ++ v)

structure IsDigits (ds : Text) : Prop where
  digits : ∀ c ∈ ds, c.isDigit = true
  nonempty : ds ≠ []

/-- The digits behind the point. -/
inductive Fraction : Text → Text → Prop
  | none : Fraction [] []
  | point {fs} : IsDigits fs → Fraction fs ('.' :: fs)

/-- The power of ten behind the digits, perhaps with a sign. -/
inductive Exponent : ℤ → Text → Prop
  | none : Exponent 0 []
  | unsigned {mark ds} : mark ∈ ['e', 'E'] → IsDigits ds →
      Exponent (Text.digitsValue ds) (mark :: ds)
  | positive {mark ds} : mark ∈ ['e', 'E'] → IsDigits ds →
      Exponent (Text.digitsValue ds) (mark :: '+' :: ds)
  | negative {mark ds} : mark ∈ ['e', 'E'] → IsDigits ds →
      Exponent (-Text.digitsValue ds) (mark :: '-' :: ds)

inductive Unsigned : Decimal → Text → Prop
  | intro {ds fs f z e} : IsWhole ds → Fraction fs f → Exponent z e →
      Unsigned ⟨Text.digitsValue (ds ++ fs), z - fs.length⟩ (ds ++ (f ++ e))

/-- The number nearest to a decimal with a sign, which a zero keeps. -/
def nearestTo (negative : Bool) (d : Decimal) : Binary64 :=
  .ofRank negative (Binary64.rankOf d.value)

inductive Numeral : Binary64 → Text → Prop
  | positive {d t} : Unsigned d t → Numeral (nearestTo false d) t
  | negative {d t} : Unsigned d t → Numeral (nearestTo true d) ('-' :: t)

section Groups

variable {α : Type} (close : Char) (R : α → Text → Prop)

/-- One item or more up to a closing mark, with commas between them and blanks around them. -/
inductive Items : List α → Text → Prop
  | last {x u w w'} : IsBlank w → R x u → IsBlank w' → Items [x] (w ++ (u ++ (w' ++ [close])))
  | more {x xs t u w w'} : IsBlank w → R x u → IsBlank w' → Items xs t →
      Items (x :: xs) (w ++ (u ++ (w' ++ ',' :: t)))

inductive Group : List α → Text → Prop
  | empty {w} : IsBlank w → Group [] (w ++ [close])
  | items {xs t} : Items close R xs t → Group xs t

end Groups

/-- A member of an object: its name and its value. -/
inductive Member (R : Value → Text → Prop) : Text × Value → Text → Prop
  | intro {name u w w' v t} : Letters name u → IsBlank w → IsBlank w' → R v t →
      Member R (name, v) ('"' :: (u ++ '"' :: (w ++ ':' :: (w' ++ t))))

/-- A value in whose items and members stand values of a kind that is known. -/
inductive Layer (R : Value → Text → Prop) : Value → Text → Prop
  | null : Layer R .null "null".toList
  | true : Layer R (.boolean true) "true".toList
  | false : Layer R (.boolean false) "false".toList
  | number {x u} : Numeral x u → Layer R (.number x) u
  | text {t u} : Letters t u → Layer R (.text t) ('"' :: (u ++ ['"']))
  | array {vs u} : Group ']' R vs u → Layer R (.array vs) ('[' :: u)
  | object {ms u} : Group '}' (Member R) ms u → Layer R (.object ms) ('{' :: u)

/-- A value of no more layers than this. -/
def Nested : ℕ → Value → Text → Prop
  | 0 => fun _ _ => False
  | n + 1 => Layer (Nested n)

/-- A text that consists of one value, with blanks around it. -/
inductive Document (v : Value) : Text → Prop
  | intro {n w u w'} : IsBlank w → Nested n v u → IsBlank w' → Document v (w ++ (u ++ w'))

end KeypadCalculator.Json
