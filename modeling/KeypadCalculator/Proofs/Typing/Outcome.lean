import KeypadCalculator.Proofs.Expression.Alphabet
import KeypadCalculator.Proofs.Typing.Glyphs
import KeypadCalculator.Report

/-! What a report finds in a text typed with glyphs, and in the text typed with plain operators. -/

namespace KeypadCalculator

open Buffer

variable {b : Buffer} {c : Char} {s t u : Text} {p : Nat}

/-- What a report says about a text, apart from the text itself. -/
def Report.findings (r : Report) : Text × Option Binary64 × Option Text :=
  (r.display, r.value, r.error)

/-- A report depends on what was typed only up to glyphs. -/
theorem findings_congr {u : Text}
    (h : withPlainOperators (typed t).text = withPlainOperators (typed u).text) (p : Nat) :
    (Report.ofExpression t p).findings = (Report.ofExpression u p).findings := by
  rw [Report.ofExpression, Report.ofExpression, typeText_withPrecision, typeText_withPrecision]
  have hblank := isBlank_congr h
  simp only [Calculator.evaluate, Calculator.text, ← hblank, evaluate_congr h]
  cases hb : (typed t).text.isBlank with
  | true =>
    rw [withPlainOperators_of_isBlank hb, withPlainOperators_of_isBlank (hblank ▸ hb)] at h
    have htyped : typed t = typed u := by rw [← ofText_text (typed t), h, ofText_text]
    rw [htyped]
    rfl
  | false =>
    cases evaluate (typed u).text (Calculator.withPrecision p).precision with
    | ok value => rfl
    | error why => cases hk : why.keepsText <;> simp [Report.findings, Calculator.display]

/-- Arithmetic once glyphs are plain operators. -/
def legible (c : Char) : Bool := isArithmetic (plainChar c)

theorem not_legible (h : legible c = false) :
    plainChar c = c ∧ c ≠ '0' ∧ c ≠ '.' ∧ isBlank c = false := by
  have hg : ¬ IsGlyph c := by
    intro hg
    have hlegible : legible c = true := hg.of_all (by decide)
    rw [h] at hlegible
    cases hlegible
  have hplain := plainChar_of_not_glyph hg
  refine ⟨hplain, ?_, ?_, ?_⟩
  · rintro rfl
    exact absurd h (by decide)
  · rintro rfl
    exact absurd h (by decide)
  · rw [legible, hplain, isArithmetic, Bool.or_eq_false_iff] at h
    exact h.2

theorem legible_plainChar (c : Char) : legible (plainChar c) = legible c := by
  rw [legible, legible, plainChar_of_not_glyph (not_isGlyph_plainChar c)]

/-- Typing only adds to a text, and only what is typed or a zero. -/
theorem append_cases (b : Buffer) (c : Char) : ∃ v, (b.append c).newestFirst = v ++ b.newestFirst ∧
    ∀ d ∈ v, d = c ∨ d = '0' := by
  simp only [append]
  split_ifs
  · exact ⟨[], rfl, by simp⟩
  · exact ⟨[], rfl, by simp⟩
  · exact ⟨[('.' : Char), '0'], rfl, by simp_all⟩
  · exact ⟨['.'], rfl, by simp_all⟩
  · exact ⟨[c], rfl, by simp⟩

theorem foldl_append_adds (t : Text) (b : Buffer) :
    ∃ v, (t.foldl append b).newestFirst = v ++ b.newestFirst ∧ ∀ d ∈ v, d ∈ t ∨ d = '0' := by
  induction t generalizing b with
  | nil => exact ⟨[], rfl, by simp⟩
  | cons c t ih =>
    obtain ⟨v, hv, hmem⟩ := append_cases b c
    obtain ⟨u, hu, hmem'⟩ := ih (b.append c)
    refine ⟨u ++ v, by rw [List.foldl_cons, hu, hv, List.append_assoc], ?_⟩
    intro d hd
    rcases List.mem_append.mp hd with hd | hd
    · exact (hmem' d hd).imp_left (List.mem_cons_of_mem c)
    · rcases hmem d hd with rfl | hzero
      · exact Or.inl List.mem_cons_self
      · exact Or.inr hzero

theorem typed_legible (hs : ∀ d ∈ s, legible d = true) :
    ∀ d ∈ (typed s).text, legible d = true := by
  obtain ⟨v, hv, hmem⟩ := foldl_append_adds s empty
  intro d hd
  rw [Buffer.text, List.mem_reverse, typed, hv, show (empty : Buffer).newestFirst = [] from rfl,
    List.append_nil] at hd
  rcases hmem d hd with hd | rfl
  · exact hs d hd
  · decide

/-- A character that is not legible is typed as it is. -/
theorem typed_foreign (hc : legible c = false) (s u : Text) :
    ∃ v, (typed (s ++ c :: u)).text = (typed s).text ++ c :: v := by
  obtain ⟨-, hzero, hpoint, -⟩ := not_legible hc
  have hpush : (typed s).append c = (typed s).push c :=
    appendBy_push (fun h => absurd h hzero) hpoint
  obtain ⟨v, hv, -⟩ := foldl_append_adds u ((typed s).push c)
  refine ⟨v.reverse, ?_⟩
  rw [typed, List.foldl_append, List.foldl_cons, ← typed, hpush, Buffer.text, hv]
  simp [push, Buffer.text]

/-- The first illegible character is reported, with its place in what was typed. -/
theorem findings_foreign (hs : ∀ d ∈ s, legible d = true) (hc : legible c = false) (u : Text)
    (p : Nat) :
    (Report.ofExpression (s ++ c :: u) p).findings = ("Error".toList, none,
      some (Failure.rejected (.disallowed c (typed s).text.length)).message) := by
  obtain ⟨-, -, -, hblank⟩ := not_legible hc
  obtain ⟨v, hv⟩ := typed_foreign hc s u
  have hscreen : screen (typed (s ++ c :: u)).text =
      .error (.disallowed c (typed s).text.length) := by
    have hlegible : ∀ d ∈ (typed s).text, ¬ IsForeign d := fun d hd =>
      isArithmetic_plainChar_iff.mp (typed_legible hs d hd)
    have hforeign : IsForeign c := by
      by_contra hnot
      exact absurd (isArithmetic_plainChar_iff.mpr hnot) (Bool.eq_false_iff.mp hc)
    rw [hv, screen_of_foreign hlegible hforeign]
  have hnot : (typed (s ++ c :: u)).text.isBlank = false := by
    rw [hv, Text.isBlank, List.all_append, List.all_cons, hblank, Bool.false_and, Bool.and_false]
  rw [Report.ofExpression, typeText_withPrecision]
  simp only [Calculator.evaluate, Calculator.text, hnot, evaluate, hscreen]
  rfl

theorem numeral_inj {m n : ℕ} : Text.numeral m = Text.numeral n ↔ m = n := by
  constructor
  · intro h
    rw [← Text.digitsValue_numeral m, h, Text.digitsValue_numeral]
  · rintro rfl
    rfl

theorem disallowed_message_inj (c : Char) {m n : ℕ} :
    (Failure.rejected (.disallowed c m)).message = (Failure.rejected (.disallowed c n)).message ↔
      m = n := by
  have hmessage : ∀ k, (Failure.rejected (.disallowed c k)).message = "Rejected input: ".toList ++
      ("Disallowed character '".toList ++ [c] ++ "' at position ".toList ++ Text.numeral k) :=
    fun k => rfl
  rw [hmessage, hmessage, List.append_cancel_left_eq, List.append_cancel_left_eq, numeral_inj]

/-- In front of an illegible character the misread points show up in its place. -/
theorem findings_foreign_eq_iff (hs : ∀ d ∈ s, legible d = true) (hc : legible c = false) (u : Text)
    (p : Nat) : (Report.ofExpression (s ++ c :: u) p).findings =
      (Report.ofExpression (withPlainOperators (s ++ c :: u)) p).findings ↔ ¬ Misread s := by
  have hplain :
      withPlainOperators (s ++ c :: u) = withPlainOperators s ++ c :: withPlainOperators u := by
    simp only [withPlainOperators_eq_map, List.map_append, List.map_cons, (not_legible hc).1]
  have hlegible : ∀ d ∈ withPlainOperators s, legible d = true := by
    intro d hd
    rw [withPlainOperators_eq_map] at hd
    obtain ⟨e, he, rfl⟩ := List.mem_map.mp hd
    rw [legible_plainChar]
    exact hs e he
  rw [hplain, findings_foreign hs hc, findings_foreign hlegible hc, ← length_typed_eq_iff,
    ← disallowed_message_inj c]
  simp only [Prod.mk.injEq, Option.some.injEq, true_and]

theorem misread_append (hu : '.' ∉ u) : Misread (t ++ u) ↔ Misread t := by
  constructor
  · rintro ⟨before, after, heq, hm⟩
    rcases List.append_eq_append_iff.mp heq with ⟨v, rfl, hv⟩ | ⟨v, rfl, hv⟩
    · exact absurd (by simp [hv]) hu
    · cases v with
      | nil =>
        rw [List.nil_append] at hv
        exact absurd (hv ▸ List.mem_cons_self) hu
      | cons d v =>
        obtain ⟨rfl, -⟩ := List.cons.inj hv
        exact ⟨before, v, rfl, hm⟩
  · rintro ⟨before, after, rfl, hm⟩
    exact ⟨before, after ++ u, by simp, hm⟩

/-- Glyphs typed into a calculator are the arithmetic that plain operators are exactly when no point
of the text is misread. They stay so, whatever is typed behind them but points, exactly when no
point is misread before the first illegible character. -/
theorem glyphs_typed_iff (t : Text) :
    (withPlainOperators (typed t).text = (typed (withPlainOperators t)).text ↔ ¬ Misread t) ∧
      ((∀ u, '.' ∉ u → ∀ p, (Report.ofExpression (t ++ u) p).findings =
        (Report.ofExpression (withPlainOperators (t ++ u)) p).findings) ↔
          ¬ Misread (t.takeWhile legible)) := by
  refine ⟨plain_typed_eq_iff t, ?_⟩
  have hlegible : ∀ d ∈ t.takeWhile legible, legible d = true :=
    fun d hd => List.mem_takeWhile_imp hd
  have hsplit := List.takeWhile_append_dropWhile (p := legible) (l := t)
  cases hrest : t.dropWhile legible with
  | nil =>
    rw [hrest, List.append_nil] at hsplit
    rw [hsplit] at hlegible ⊢
    constructor
    · intro h
      exact (findings_foreign_eq_iff hlegible (by decide) [] 0).mp (h ['a'] (by simp) 0)
    · intro hm u hu p
      apply findings_congr
      have h := (plain_typed_eq_iff (t ++ u)).mpr (fun h => hm ((misread_append hu).mp h))
      rw [← h, withPlainOperators_idem]
  | cons c rest =>
    have hc : legible c = false := by
      have h := List.head?_dropWhile_not legible t
      rw [hrest] at h
      simpa using h
    rw [hrest] at hsplit
    have hext : ∀ u, t ++ u = t.takeWhile legible ++ c :: (rest ++ u) := by
      intro u
      conv_lhs => rw [← hsplit]
      simp
    constructor
    · intro h
      have h := h [] (by simp) 0
      rw [hext] at h
      exact (findings_foreign_eq_iff hlegible hc _ 0).mp h
    · intro hm u _ p
      rw [hext]
      exact (findings_foreign_eq_iff hlegible hc _ p).mpr hm

/-- The second point of `1.5×2.5` is dropped, which leaves `1.5×25`. -/
theorem glyphs_typed_differ : ¬ ∀ (t : Text) (p : Nat), (Report.ofExpression t p).findings =
    (Report.ofExpression (withPlainOperators t) p).findings := by
  intro h
  exact absurd (h "1.5×2.5".toList 12) (by decide +kernel)

end KeypadCalculator
