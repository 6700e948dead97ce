import KeypadCalculator.Expression.Evaluation

/-! Glyphs stand for plain operators one by one, and screening sees only what they stand for. -/

namespace KeypadCalculator

variable {c : Char} {t u : Text} {p : Nat}

/-- The plain operator of a glyph; every other character stands for itself. -/
def plainChar (c : Char) : Char :=
  if c ∈ GlyphFamily.times.glyphs then '*'
  else if c ∈ GlyphFamily.divide.glyphs then '/'
  else if c ∈ GlyphFamily.minus.glyphs then '-'
  else c

def IsGlyph (c : Char) : Prop :=
  c ∈ GlyphFamily.times.glyphs ++ GlyphFamily.divide.glyphs ++ GlyphFamily.minus.glyphs

instance : Decidable (IsGlyph c) :=
  inferInstanceAs (Decidable (c ∈ _))

theorem plainChar_of_not_glyph (h : ¬ IsGlyph c) : plainChar c = c := by
  simp only [IsGlyph, List.mem_append, not_or] at h
  rw [plainChar, if_neg h.1.1, if_neg h.1.2, if_neg h.2]

theorem isGlyph_iff : IsGlyph c ↔
    c = '×' ∨ c = 'x' ∨ c = '✕' ∨ c = '÷' ∨ c = '–' ∨ c = '−' := by
  simp [IsGlyph, GlyphFamily.times, GlyphFamily.divide, GlyphFamily.minus]

/-- A glyph is as each of them is. -/
theorem IsGlyph.of_all {q : Char → Bool} (h : IsGlyph c) (hq : (GlyphFamily.times.glyphs ++
    GlyphFamily.divide.glyphs ++ GlyphFamily.minus.glyphs).all q = true) : q c = true :=
  List.all_eq_true.mp hq c h

theorem plainChar_glyph (h : IsGlyph c) : plainChar c ∈ ['*', '/', '-'] := by
  apply of_decide_eq_true
  exact h.of_all (q := fun d => decide (plainChar d ∈ ['*', '/', '-'])) (by decide)

theorem not_isArithmetic_of_isGlyph (h : IsGlyph c) : isArithmetic c = false := by
  simpa using h.of_all (q := fun d => !isArithmetic d) (by decide)

theorem not_isBlank_of_isGlyph (h : IsGlyph c) : isBlank c = false := by
  have hc := not_isArithmetic_of_isGlyph h
  rw [isArithmetic, Bool.or_eq_false_iff] at hc
  exact hc.2

/-- One family after another replaces each glyph once: no glyph stands for a glyph. -/
theorem withPlainOperators_eq_map (t : Text) : withPlainOperators t = t.map plainChar := by
  simp only [withPlainOperators, GlyphFamily.replace, List.map_map]
  congr 1
  funext c
  by_cases h : IsGlyph c
  · apply of_decide_eq_true
    exact h.of_all (q := fun d => decide (_ = plainChar d)) (by decide)
  · rw [plainChar_of_not_glyph h]
    simp only [IsGlyph, List.mem_append, not_or] at h
    simp [h]

theorem not_isGlyph_plainChar (c : Char) : ¬ IsGlyph (plainChar c) := by
  by_cases h : IsGlyph c
  · have hc := plainChar_glyph h
    simp only [List.mem_cons, List.not_mem_nil, or_false] at hc
    rcases hc with hc | hc | hc <;> rw [hc] <;> decide
  · rwa [plainChar_of_not_glyph h]

theorem plainChar_eq_iff (hc : c ∉ ['*', '/', '-']) (hg : ¬ IsGlyph c) (d : Char) :
    plainChar d = c ↔ d = c := by
  by_cases h : IsGlyph d
  · have hd := plainChar_glyph h
    constructor
    · intro he
      exact absurd (he ▸ hd) hc
    · intro he
      exact absurd (he ▸ h) hg
  · rw [plainChar_of_not_glyph h]

theorem mem_map_plainChar (hc : c ∉ ['*', '/', '-']) (hg : ¬ IsGlyph c) (t : Text) :
    c ∈ t.map plainChar ↔ c ∈ t := by
  simp [plainChar_eq_iff hc hg]

theorem count_map_plainChar (hc : c ∉ ['*', '/', '-']) (hg : ¬ IsGlyph c) (t : Text) :
    (t.map plainChar).count c = t.count c := by
  rw [List.count_eq_countP, List.countP_map, List.count_eq_countP]
  apply List.countP_congr
  intro d _
  simp [plainChar_eq_iff hc hg d]

theorem withPlainOperators_idem (t : Text) :
    withPlainOperators (withPlainOperators t) = withPlainOperators t := by
  simp only [withPlainOperators_eq_map, List.map_map]
  congr 1
  funext c
  exact plainChar_of_not_glyph (not_isGlyph_plainChar c)

theorem map_plainChar_of_no_glyph (h : ∀ c ∈ t, ¬ IsGlyph c) : t.map plainChar = t := by
  calc t.map plainChar = t.map id := List.map_congr_left fun c hc => plainChar_of_not_glyph (h c hc)
    _ = t := List.map_id t

theorem withPlainOperators_of_no_glyph (h : ∀ c ∈ t, ¬ IsGlyph c) : withPlainOperators t = t := by
  rw [withPlainOperators_eq_map]
  exact map_plainChar_of_no_glyph h

theorem screen_congr (h : withPlainOperators t = withPlainOperators u) : screen t = screen u := by
  simp only [screen, h]

theorem evaluate_congr (h : withPlainOperators t = withPlainOperators u) :
    evaluate t p = evaluate u p := by
  simp only [evaluate, screen_congr h]

theorem isBlank_plainChar (c : Char) : isBlank (plainChar c) = isBlank c := by
  by_cases h : IsGlyph c
  · rw [not_isBlank_of_isGlyph h]
    simpa using h.of_all (q := fun d => !isBlank (plainChar d)) (by decide)
  · rw [plainChar_of_not_glyph h]

theorem isBlank_congr (h : withPlainOperators t = withPlainOperators u) :
    t.isBlank = u.isBlank := by
  have ht : ∀ t : Text, t.isBlank = (withPlainOperators t).isBlank := by
    intro t
    simp [Text.isBlank, withPlainOperators_eq_map, List.all_map, Function.comp_def,
      isBlank_plainChar]
  rw [ht t, ht u, h]

/-- A blank text has no glyphs. -/
theorem withPlainOperators_of_isBlank (h : t.isBlank = true) : withPlainOperators t = t := by
  apply withPlainOperators_of_no_glyph
  intro c hc hg
  have hb : isBlank c = true := List.all_eq_true.mp h c hc
  rw [not_isBlank_of_isGlyph hg] at hb
  cases hb

end KeypadCalculator
