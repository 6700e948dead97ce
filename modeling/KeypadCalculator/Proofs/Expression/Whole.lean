import KeypadCalculator.Proofs.Binary64.Whole

/-! Arithmetic of whole numbers is exact, from the text of an expression to that of its result. -/

namespace KeypadCalculator

open Binary64 Token

variable {k j : Category} {s : Symbol} {t : Text} {ls : List Text} {ss : List Symbol}

/-- A numeral, perhaps with zeros in front. -/
structure Digits where
  text : Text
  nonempty : text ≠ []
  digits : text.all Char.isDigit

/-- Expressions of whole numbers, with the parentheses that are written. -/
inductive Whole : Category → Type
  | product (e : Whole .product) : Whole .sum
  | plus (l : Whole .sum) (r : Whole .product) : Whole .sum
  | minus (l : Whole .sum) (r : Whole .product) : Whole .sum
  | signed (e : Whole .signed) : Whole .product
  | times (l : Whole .product) (r : Whole .signed) : Whole .product
  | divide (l : Whole .product) (r : Whole .signed) : Whole .product
  | operand (e : Whole .operand) : Whole .signed
  | positive (e : Whole .signed) : Whole .signed
  | negative (e : Whole .signed) : Whole .signed
  | literal (ds : Digits) : Whole .operand
  | group (e : Whole .sum) : Whole .operand

namespace Whole

/-- What is written, from left to right. -/
def lexemes : {k : Category} → Whole k → List Text
  | _, product e | _, signed e | _, operand e => e.lexemes
  | _, plus l r => l.lexemes ++ ['+'] :: r.lexemes
  | _, minus l r => l.lexemes ++ ['-'] :: r.lexemes
  | _, times l r => l.lexemes ++ ['*'] :: r.lexemes
  | _, divide l r => l.lexemes ++ ['/'] :: r.lexemes
  | _, positive e => ['+'] :: e.lexemes
  | _, negative e => ['-'] :: e.lexemes
  | _, literal ds => [ds.text]
  | _, group e => ['('] :: e.lexemes ++ [[')']]

/-- The exact value, as long as all quotients are. -/
def value : {k : Category} → Whole k → ℤ
  | _, product e | _, signed e | _, operand e | _, positive e | _, group e => e.value
  | _, plus l r => l.value + r.value
  | _, minus l r => l.value - r.value
  | _, times l r => l.value * r.value
  | _, divide l r => l.value / r.value
  | _, negative e => -e.value
  | _, literal ds => Text.digitsValue ds.text

/-- How deep parentheses are nested. -/
def nesting : {k : Category} → Whole k → ℕ
  | _, product e | _, signed e | _, operand e | _, positive e | _, negative e => e.nesting
  | _, plus l r | _, minus l r => max l.nesting r.nesting
  | _, times l r | _, divide l r => max l.nesting r.nesting
  | _, literal _ => 0
  | _, group e => e.nesting + 1

/-- No part of an expression leaves the range in which binary64 numbers hold all whole numbers, and
every quotient is whole. -/
def Exact : {k : Category} → Whole k → Prop
  | _, product e | _, signed e | _, operand e | _, positive e | _, negative e | _, group e =>
    e.Exact
  | _, plus l r => l.Exact ∧ r.Exact ∧ |l.value + r.value| ≤ 2 ^ 53
  | _, minus l r => l.Exact ∧ r.Exact ∧ |l.value - r.value| ≤ 2 ^ 53
  | _, times l r => l.Exact ∧ r.Exact ∧ |l.value * r.value| ≤ 2 ^ 53
  | _, divide l r => l.Exact ∧ r.Exact ∧ r.value ≠ 0 ∧ r.value ∣ l.value
  | _, literal ds => Text.digitsValue ds.text ≤ 2 ^ 53

instance decidableExact : {k : Category} → (e : Whole k) → Decidable e.Exact
  | _, product e | _, signed e | _, operand e | _, positive e | _, negative e | _, group e =>
    decidableExact e
  | _, plus l r | _, minus l r | _, times l r | _, divide l r =>
    have := decidableExact l
    have := decidableExact r
    inferInstanceAs (Decidable (_ ∧ _ ∧ _))
  | _, literal ds => inferInstanceAs (Decidable (Text.digitsValue ds.text ≤ 2 ^ 53))

theorem Exact.abs_value_le {e : Whole k} (h : e.Exact) : |e.value| ≤ 2 ^ 53 := by
  induction e with
  | product e ih | signed e ih | operand e ih | positive e ih | group e ih => exact ih h
  | negative e ih =>
    rw [value, abs_neg]
    exact ih h
  | plus l r | minus l r | times l r => exact h.2.2
  | divide l r ihl => exact (Int.abs_ediv_le_abs l.value r.value).trans (ihl h.1)
  | literal ds =>
    rw [value, Nat.abs_cast]
    exact_mod_cast h

end Whole

/-- Lexemes one after another, with any blanks between them and around. -/
inductive Spaced : List Text → Text → Prop
  | nil : Spaced [] []
  | blank {c : Char} {ls : List Text} {t : Text} :
      isBlank c = true → Spaced ls t → Spaced ls (c :: t)
  | lexeme (l : Text) {ls : List Text} {t : Text} : Spaced ls t → Spaced (l :: ls) (l ++ t)

theorem spaced_flatten (ls : List Text) : Spaced ls ls.flatten := by
  induction ls with
  | nil => exact .nil
  | cons l ls ih => exact .lexeme l ih

/-- What a lexeme is scanned as. -/
inductive Lexes : Text → Symbol → Prop
  | digits (ds : Digits) : Lexes ds.text (.number (ofNat (Text.digitsValue ds.text)))
  | mark {c : Char} {s : Symbol} : symbolOf? c = some s → Lexes [c] s

/-- No digit and no point comes next where no number does. -/
theorem Spaced.startsNumber_eq_false (h : Spaced ls t) (hlexes : List.Forall₂ Lexes ls ss)
    (hss : ∀ s ∈ ss.head?, ¬ s.IsNumber) : ∀ c ∈ t.head?, startsNumber c = false := by
  cases h with
  | nil => simp
  | @blank c ls t hc h =>
    intro d hd
    obtain rfl : c = d := by simpa using hd
    exact not_startsNumber_of_isBlank hc
  | lexeme l h =>
    cases hlexes with
    | cons hl _ =>
      cases hl with
      | digits ds => exact absurd ⟨_, rfl⟩ (hss _ rfl)
      | mark hmark => simpa using startsNumber_of_symbolOf? hmark

theorem Spaced.scans (h : Spaced ls t) (hlexes : List.Forall₂ Lexes ls ss)
    (hss : ss.IsChain Apart) : Scans t ss := by
  induction h generalizing ss with
  | nil =>
    cases hlexes
    exact .nil
  | blank hc h ih => exact .blank hc (ih hlexes hss)
  | lexeme l h ih =>
    cases hlexes with
    | cons hl hls =>
      obtain ⟨hapart, htail⟩ := List.isChain_cons.mp hss
      cases hl with
      | mark hmark => exact .symbol hmark (ih hls htail)
      | digits ds =>
        -- The next symbol is no number, so no digit runs on into it.
        have hend := h.startsNumber_eq_false hls fun s hs hnumber =>
          hapart s hs ⟨⟨_, rfl⟩, hnumber⟩
        have hdigits := List.all_eq_true.mp ds.digits
        have hvalue := literalValue?_whole hdigits
        rw [if_neg ds.nonempty] at hvalue
        exact .number (.whole hdigits ds.nonempty hend) hvalue (ih hls htail)

/-- The symbols of an expression, and the tree that computes its value from them. -/
structure Represents (e : Whole k) (ss : List Symbol) (tree : Tree) : Prop where
  lexes : List.Forall₂ Lexes e.lexemes ss
  derives : Derives k ss tree
  nesting : tree.nesting = e.nesting
  exactly : e.Exact → IsExactly tree.eval e.value

/-- An operator between two expressions. -/
theorem exists_represents_chain {i : Category} {e l : Whole i} {r : Whole j}
    {op : Binary64 → Binary64 → Binary64} {c : Char} (hchains : Chains i j s op)
    (ihl : ∃ ss tree, Represents l ss tree) (ihr : ∃ ss tree, Represents r ss tree)
    (hlexemes : e.lexemes = l.lexemes ++ [c] :: r.lexemes) (hmark : symbolOf? c = some s)
    (hnesting : e.nesting = max l.nesting r.nesting)
    (hop : e.Exact → l.Exact ∧ r.Exact ∧ ∀ v w, IsExactly v l.value → IsExactly w r.value →
      IsExactly (op v w) e.value) :
    ∃ ss tree, Represents e ss tree := by
  obtain ⟨ss, left, hl⟩ := ihl
  obtain ⟨us, right, hr⟩ := ihr
  obtain ⟨node, hderives, hnode, heval⟩ := hchains
  refine ⟨ss ++ s :: us, node left right, ⟨?_, ?_, ?_, ?_⟩⟩
  · rw [hlexemes]
    exact List.rel_append hl.lexes (.cons (.mark hmark) hr.lexes)
  · exact hderives _ _ _ _ hl.derives hr.derives
  · rw [hnode, hl.nesting, hr.nesting, hnesting]
  · intro he
    obtain ⟨hle, hre, hexactly⟩ := hop he
    rw [heval]
    exact hexactly _ _ (hl.exactly hle) (hr.exactly hre)

theorem exists_represents (e : Whole k) : ∃ ss tree, Represents e ss tree := by
  induction e with
  | product e ih =>
    obtain ⟨ss, tree, h⟩ := ih
    exact ⟨ss, tree, h.lexes, .product h.derives, h.nesting, h.exactly⟩
  | signed e ih =>
    obtain ⟨ss, tree, h⟩ := ih
    exact ⟨ss, tree, h.lexes, .signed h.derives, h.nesting, h.exactly⟩
  | operand e ih =>
    obtain ⟨ss, tree, h⟩ := ih
    exact ⟨ss, tree, h.lexes, .operand h.derives, h.nesting, h.exactly⟩
  | plus l r ihl ihr =>
    exact exists_represents_chain chains_plus ihl ihr rfl rfl rfl fun he =>
      ⟨he.1, he.2.1, fun _ _ hv hw => hv.add hw he.2.2⟩
  | minus l r ihl ihr =>
    exact exists_represents_chain chains_minus ihl ihr rfl rfl rfl fun he =>
      ⟨he.1, he.2.1, fun _ _ hv hw => hv.sub hw he.2.2⟩
  | times l r ihl ihr =>
    exact exists_represents_chain chains_times ihl ihr rfl rfl rfl fun he =>
      ⟨he.1, he.2.1, fun _ _ hv hw => hv.mul hw he.2.2⟩
  | divide l r ihl ihr =>
    exact exists_represents_chain chains_divide ihl ihr rfl rfl rfl fun he =>
      ⟨he.1, he.2.1, fun _ _ hv hw => hv.div hw he.2.2.1 he.2.2.2 he.abs_value_le⟩
  | positive e ih =>
    obtain ⟨ss, tree, h⟩ := ih
    exact ⟨_, tree, .cons (.mark rfl) h.lexes, .positive h.derives, h.nesting, h.exactly⟩
  | negative e ih =>
    obtain ⟨ss, tree, h⟩ := ih
    exact ⟨_, _, .cons (.mark rfl) h.lexes, .negative h.derives, h.nesting,
      fun he => (h.exactly he).neg⟩
  | literal ds =>
    exact ⟨_, _, .cons (.digits ds) .nil, .number _, rfl, isExactly_ofNat⟩
  | group e ih =>
    obtain ⟨ss, tree, h⟩ := ih
    have hclosed := List.rel_append h.lexes (.cons (.mark (c := ')') rfl) .nil)
    exact ⟨_, _, .cons (.mark rfl) hclosed, .group h.derives, congrArg (· + 1) h.nesting, h.exactly⟩

/-- The result of an expression of whole numbers is its exact value, at any precision, and its text
is the numeral of that value. -/
theorem evaluate_whole (e : Whole .sum) (ht : Spaced e.lexemes t) (he : e.Exact)
    (hnesting : e.nesting ≤ Parser.maxDepth) (p : ℕ) :
    ∃ v, evaluate t p = .ok v ∧ IsExactly v e.value ∧ v.text = integerNumeral e.value := by
  obtain ⟨ss, tree, h⟩ := exists_represents e
  have hscans := ht.scans h.lexes h.derives.apart
  have hlimit := he.abs_value_le
  have hscreen : screen t = .ok t := by rw [screen_of_scans hscans, if_pos h.derives.count_eq]
  have hvalue := (valueOfText_of_scans hscans).mpr
    ⟨tree, h.derives, h.nesting.trans_le hnesting, rfl⟩
  have hexact := h.exactly he
  have hrounded := hexact.roundToPlaces hlimit p
  exact ⟨_, evaluate_eq_ok_iff.mpr ⟨t, _, hscreen, hvalue, hexact.1, rfl⟩, hrounded,
    hrounded.text_eq hlimit⟩

/-- The largest number of the range, zeros in front, signs, parentheses and a blank. -/
theorem evaluate_whole_quotient :
    let one : Whole .signed := .operand (.literal ⟨"01".toList, by decide, by decide⟩)
    let last : Whole .signed :=
      .operand (.literal ⟨"9007199254740992".toList, by decide, by decide⟩)
    let two : Whole .sum := .plus (.product (.signed one)) (.signed (.positive one))
    let top : Whole .sum := .minus (.product (.signed last)) (.signed (.operand (.group two)))
    let e : Whole .sum := .product (.divide (.signed (.operand (.group top)))
      (.negative (.operand (.group two))))
    let t := " (9007199254740992-(01++01))/-(01++01)".toList
    Spaced e.lexemes t ∧ e.Exact ∧ e.nesting ≤ Parser.maxDepth ∧
      ∃ v, evaluate t 15 = .ok v ∧ IsExactly v (-4503599627370495) ∧
        v.text = "-4503599627370495".toList := by
  intro one last two top e t
  have ht : Spaced e.lexemes t := .blank rfl (spaced_flatten e.lexemes)
  have he : e.Exact := by decide
  have hnesting : e.nesting ≤ Parser.maxDepth := by decide
  have hnumeral : integerNumeral (-4503599627370495) = "-4503599627370495".toList := by decide
  exact ⟨ht, he, hnesting, hnumeral ▸ evaluate_whole e ht he hnesting 15⟩

end KeypadCalculator
