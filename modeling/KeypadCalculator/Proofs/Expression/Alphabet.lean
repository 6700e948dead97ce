import KeypadCalculator.Proofs.Expression.Screening

/-! What screening lets pass, and what it says of a text that it turns away. -/

namespace KeypadCalculator

/-- A class of characters, given by ranges that hold both their ends. -/
abbrev CharClass := List (Char × Char)

namespace CharClass

def has (k : CharClass) (c : Char) : Bool :=
  k.any fun range => range.1 ≤ c && c ≤ range.2

def ofList (t : List Char) : CharClass :=
  t.map fun c => (c, c)

def whiteSpace : CharClass :=
  [('\t', '\r'), (' ', ' '), ('\u0085', '\u0085'), ('\u00A0', '\u00A0'), ('\u1680', '\u1680'),
    ('\u2000', '\u200A'), ('\u2028', '\u2029'), ('\u202F', '\u202F'), ('\u205F', '\u205F'),
    ('\u3000', '\u3000')]

def arithmetic : CharClass :=
  [('0', '9')] ++ ofList ['+', '-', '*', '/', '(', ')', '.'] ++ whiteSpace

end CharClass

/-- Screening in two steps: the text is held against the class as a whole, and only when it does not
fit, its first foreign character is looked for. -/
def screenByClass (t : Text) : Except Rejection Text :=
  let plain := withPlainOperators t
  if plain.all CharClass.arithmetic.has then
    let opening := plain.count '('
    let closing := plain.count ')'
    if opening = closing then .ok plain else .error (.unbalanced opening closing)
  else
    let (c, position) := (firstForeign? plain).getD ('\uFFFD', 0)
    .error (.disallowed c position)

/-- Neither a glyph nor arithmetic. -/
def IsForeign (c : Char) : Prop := ¬ IsGlyph c ∧ isArithmetic c = false

variable {c : Char} {t u : Text}

namespace CharClass

theorem has_iff (k : CharClass) :
    k.has c = true ↔ ∃ range ∈ k, range.1.toNat ≤ c.toNat ∧ c.toNat ≤ range.2.toNat := by
  simp [has, Char.le_def, UInt32.le_iff_toNat_le]

theorem has_append (j k : CharClass) : has (j ++ k) c = (has j c || has k c) := List.any_append

theorem has_ofList (t : List Char) : (ofList t).has c = decide (c ∈ t) := by
  rw [Bool.eq_iff_iff, has_iff, decide_eq_true_iff]
  constructor
  · rintro ⟨range, hrange, hle, hge⟩
    obtain ⟨d, hd, rfl⟩ := List.mem_map.mp hrange
    obtain rfl : d = c := Char.toNat_inj.mp (Nat.le_antisymm hle hge)
    exact hd
  · intro hc
    exact ⟨(c, c), List.mem_map_of_mem hc, le_rfl, le_rfl⟩

theorem has_digits : has [('0', '9')] c = c.isDigit := by
  rw [Bool.eq_iff_iff, has_iff, Token.isDigit_iff]
  simp

theorem has_whiteSpace : whiteSpace.has c = isBlank c := by
  rw [Bool.eq_iff_iff, has_iff]
  simp only [whiteSpace, List.mem_cons, List.not_mem_nil, or_false, exists_eq_or_imp,
    exists_eq_left, isBlank, Bool.or_eq_true, Bool.and_eq_true, decide_eq_true_eq, beq_iff_eq,
    Char.reduceToNat]
  omega

/-- The class and the test of a single character are the same alphabet. -/
theorem has_arithmetic : arithmetic.has c = isArithmetic c := by
  rw [arithmetic, has_append, has_append, has_digits, has_ofList, has_whiteSpace, isArithmetic]

end CharClass

theorem isArithmetic_plainChar_iff : isArithmetic (plainChar c) = true ↔ ¬ IsForeign c := by
  by_cases hglyph : IsGlyph c
  · have harith : isArithmetic (plainChar c) = true :=
      hglyph.of_all (q := fun d => isArithmetic (plainChar d)) (by decide)
    simp [IsForeign, hglyph, harith]
  · simp [IsForeign, hglyph, plainChar_of_not_glyph hglyph]

theorem isArithmetic_of_mem_plain (h : ∀ d ∈ t, ¬ IsForeign d) :
    ∀ d ∈ withPlainOperators t, isArithmetic d = true := by
  intro d hd
  rw [withPlainOperators_eq_map] at hd
  obtain ⟨e, he, rfl⟩ := List.mem_map.mp hd
  exact isArithmetic_plainChar_iff.mpr (h e he)

instance : DecidablePred IsForeign := fun _ => inferInstanceAs (Decidable (_ ∧ _))

/-- A text has a first foreign character, if it has any. -/
theorem exists_first_foreign (t : Text) : (∀ d ∈ t, ¬ IsForeign d) ∨
    ∃ before c after, t = before ++ c :: after ∧ (∀ d ∈ before, ¬ IsForeign d) ∧ IsForeign c := by
  cases h : t.find? (fun d => decide (IsForeign d)) with
  | none =>
    left
    simpa using List.find?_eq_none.mp h
  | some c =>
    right
    obtain ⟨hc, before, after, rfl, hbefore⟩ := List.find?_eq_some_iff_append.mp h
    exact ⟨before, c, after, rfl, by simpa using hbefore, by simpa using hc⟩

/-- A glyph in front of the character takes one place, as the operator does that it stands for. -/
theorem firstForeign?_of_foreign (ht : ∀ d ∈ t, ¬ IsForeign d) (hc : IsForeign c) (u : Text) :
    firstForeign? (withPlainOperators (t ++ c :: u)) = some (c, t.length) := by
  have hfirst := firstForeign?_append (isArithmetic_of_mem_plain ht) hc.2 (withPlainOperators u)
  simpa only [withPlainOperators_eq_map, List.map_append, List.map_cons, List.length_map,
    plainChar_of_not_glyph hc.1] using hfirst

/-- The character that is looked for is always there. -/
theorem screenByClass_eq (t : Text) : screenByClass t = screen t := by
  have hclass : CharClass.arithmetic.has = isArithmetic := funext fun _ => CharClass.has_arithmetic
  rw [screenByClass, screen, hclass]
  rcases exists_first_foreign t with hall | ⟨before, c, after, rfl, hbefore, hc⟩
  · have harith := isArithmetic_of_mem_plain hall
    simp only [firstForeign?_eq_none harith, List.all_eq_true.mpr harith, if_true]
  · have hnot : ¬ (withPlainOperators (before ++ c :: after)).all isArithmetic = true := by
      intro hall
      have hnone := firstForeign?_eq_none (List.all_eq_true.mp hall)
      rw [firstForeign?_of_foreign hbefore hc] at hnone
      cases hnone
    simp only [firstForeign?_of_foreign hbefore hc, hnot]
    rfl

theorem screen_of_foreign (ht : ∀ d ∈ t, ¬ IsForeign d) (hc : IsForeign c) (u : Text) :
    screen (t ++ c :: u) = .error (.disallowed c t.length) := by
  rw [screen, firstForeign?_of_foreign ht hc]

theorem screen_of_not_foreign (h : ∀ d ∈ t, ¬ IsForeign d) : screen t =
    if t.count '(' = t.count ')' then .ok (t.map plainChar)
    else .error (.unbalanced (t.count '(') (t.count ')')) := by
  rw [screen, firstForeign?_eq_none (isArithmetic_of_mem_plain h), withPlainOperators_eq_map]
  simp only [count_map_plainChar (c := '(') (by simp) (by decide),
    count_map_plainChar (c := ')') (by simp) (by decide)]

/-- Only a foreign character is disallowed. -/
theorem not_foreign_of_screen (h : ∀ c position, screen t ≠ .error (.disallowed c position)) :
    ∀ d ∈ t, ¬ IsForeign d := by
  rcases exists_first_foreign t with hall | ⟨before, c, after, rfl, hbefore, hc⟩
  · exact hall
  · exact absurd (screen_of_foreign hbefore hc after) (h c before.length)

theorem screen_disallowed_iff {position : ℕ} : screen t = .error (.disallowed c position) ↔
    ∃ before after, t = before ++ c :: after ∧ before.length = position ∧
      (∀ d ∈ before, ¬ IsForeign d) ∧ IsForeign c := by
  constructor
  · intro h
    rcases exists_first_foreign t with hall | ⟨before, d, after, rfl, hbefore, hd⟩
    · rw [screen_of_not_foreign hall] at h
      split_ifs at h
      cases h
    · rw [screen_of_foreign hbefore hd] at h
      cases h
      exact ⟨before, after, rfl, rfl, hbefore, hd⟩
  · rintro ⟨before, after, rfl, rfl, hbefore, hc⟩
    exact screen_of_foreign hbefore hc after

theorem screen_unbalanced_iff {opening closing : ℕ} :
    screen t = .error (.unbalanced opening closing) ↔ (∀ d ∈ t, ¬ IsForeign d) ∧
      t.count '(' = opening ∧ t.count ')' = closing ∧ opening ≠ closing := by
  constructor
  · intro h
    have hall : ∀ d ∈ t, ¬ IsForeign d := not_foreign_of_screen (by simp [h])
    rw [screen_of_not_foreign hall] at h
    split_ifs at h with hcount
    cases h
    exact ⟨hall, rfl, rfl, hcount⟩
  · rintro ⟨hall, rfl, rfl, hcount⟩
    rw [screen_of_not_foreign hall, if_neg hcount]

theorem screen_ok_iff : screen t = .ok u ↔ (∀ d ∈ t, ¬ IsForeign d) ∧
    t.count '(' = t.count ')' ∧ u = t.map plainChar := by
  constructor
  · intro h
    have hall : ∀ d ∈ t, ¬ IsForeign d := not_foreign_of_screen (by simp [h])
    rw [screen_of_not_foreign hall] at h
    split_ifs at h with hcount
    cases h
    exact ⟨hall, hcount, rfl⟩
  · rintro ⟨hall, hcount, rfl⟩
    rw [screen_of_not_foreign hall, if_pos hcount]

/-- What has passed passes again as it is. -/
theorem screen_idem (h : screen t = .ok u) : screen u = .ok u := by
  obtain ⟨hall, hcount, rfl⟩ := screen_ok_iff.mp h
  refine screen_ok_iff.mpr ⟨?_, ?_, ?_⟩
  · intro d hd hforeign
    obtain ⟨e, he, rfl⟩ := List.mem_map.mp hd
    exact absurd hforeign.2 (by simp [isArithmetic_plainChar_iff.mpr (hall e he)])
  · rwa [count_map_plainChar (by simp) (by decide), count_map_plainChar (by simp) (by decide)]
  · rw [← withPlainOperators_eq_map, ← withPlainOperators_eq_map, withPlainOperators_idem]

/-- Glyphs become plain operators in one step, character by character. The first character that is
neither a glyph nor arithmetic is reported with its place in the text as it was; only then do the
parentheses count; and what passes is the plain text, which passes again. -/
theorem screen_spec (t : Text) :
    (withPlainOperators t = t.map plainChar ∧ (withPlainOperators t).length = t.length ∧
      withPlainOperators (withPlainOperators t) = withPlainOperators t) ∧
    screenByClass t = screen t ∧
    (∀ c position, screen t = .error (.disallowed c position) ↔ ∃ before after,
      t = before ++ c :: after ∧ before.length = position ∧ (∀ d ∈ before, ¬ IsForeign d) ∧
        IsForeign c) ∧
    (∀ opening closing, screen t = .error (.unbalanced opening closing) ↔
      (∀ d ∈ t, ¬ IsForeign d) ∧ t.count '(' = opening ∧ t.count ')' = closing ∧
        opening ≠ closing) ∧
    (∀ u, screen t = .ok u ↔
      (∀ d ∈ t, ¬ IsForeign d) ∧ t.count '(' = t.count ')' ∧ u = t.map plainChar) ∧
    ∀ u, screen t = .ok u → screen u = .ok u := by
  have hmap := withPlainOperators_eq_map t
  refine ⟨⟨hmap, ?_, withPlainOperators_idem t⟩, screenByClass_eq t,
    fun _ _ => screen_disallowed_iff, fun _ _ => screen_unbalanced_iff, fun _ => screen_ok_iff,
    fun _ => screen_idem⟩
  rw [hmap, List.length_map]

end KeypadCalculator
