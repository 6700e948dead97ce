import KeypadCalculator.Proofs.Expression.Descent
import KeypadCalculator.Proofs.Expression.Glyphs
import KeypadCalculator.Proofs.Expression.Scanning

/-! What can be scanned passes the screen if its parentheses balance, so that the symbols of a text
alone decide its value. -/

namespace KeypadCalculator

open Token

variable {c : Char} {l t u : Text} {s : Symbol} {ss : List Symbol} {v : Binary64} {p : Nat}

theorem isArithmetic_of_startsNumber (h : startsNumber c = true) : isArithmetic c = true := by
  rw [startsNumber, Bool.or_eq_true, beq_iff_eq] at h
  rcases h with h | rfl
  · simp [isArithmetic, h]
  · decide

theorem isArithmetic_of_symbolOf? (h : symbolOf? c = some s) : isArithmetic c = true := by
  rw [symbolOf?.eq_def] at h
  split at h <;> first | decide | cases h

theorem isArithmetic_of_scans (h : Scans t ss) : ∀ c ∈ t, isArithmetic c = true := by
  induction h with
  | nil => simp
  | blank hc _ ih => simpa [isArithmetic, hc] using ih
  | symbol hc _ ih => simpa [isArithmetic_of_symbolOf? hc] using ih
  | number hl _ _ ih =>
    intro c hc
    rcases List.mem_append.mp hc with hc | hc
    · exact isArithmetic_of_startsNumber (startsNumber_of_mem_literal hl c hc)
    · exact ih c hc

theorem firstForeign?_eq_none (h : ∀ c ∈ t, isArithmetic c = true) : firstForeign? t = none := by
  rw [firstForeign?, List.find?_eq_none]
  rintro ⟨c, i⟩ hc
  obtain ⟨hi, hci⟩ := List.mem_zipIdx' hc
  have hmem : c ∈ t := hci ▸ List.getElem_mem hi
  simp [h c hmem]

theorem firstForeign?_append (ht : ∀ d ∈ t, isArithmetic d = true) (hc : isArithmetic c = false)
    (u : Text) : firstForeign? (t ++ c :: u) = some (c, t.length) := by
  have hnone : t.zipIdx.find? (fun entry => !isArithmetic entry.1) = none :=
    firstForeign?_eq_none ht
  rw [firstForeign?, List.zipIdx_append, List.find?_append, hnone]
  simp [List.zipIdx_cons, hc]

/-- A parenthesis is only ever written by itself. -/
theorem count_scans {q : Char} (hs : symbolOf? q = some s) (hq : ∀ c, symbolOf? c = some s → c = q)
    (hn : ¬ s.IsNumber) (h : Scans t ss) : t.count q = ss.count s := by
  have hstart : ∀ c, startsNumber c = true → c ≠ q := by
    rintro c hc rfl
    rw [symbolOf?_of_startsNumber hc] at hs
    cases hs
  induction h with
  | nil => rfl
  | @blank c t ss hc _ ih =>
    have hne : c ≠ q := by
      rintro rfl
      rw [not_isBlank_of_symbolOf? hs] at hc
      cases hc
    rw [List.count_cons_of_ne hne, ih]
  | @symbol c t r ss hc _ ih =>
    by_cases he : r = s
    · subst he
      rw [hq c hc, List.count_cons_self, List.count_cons_self, ih]
    · have hne : c ≠ q := by
        rintro rfl
        rw [hs] at hc
        exact he (Option.some.inj hc).symm
      rw [List.count_cons_of_ne hne, List.count_cons_of_ne he, ih]
  | @number l t v ss hl _ _ ih =>
    have hzero : l.count q = 0 := List.count_eq_zero.mpr fun hm =>
      hstart q (startsNumber_of_mem_literal hl q hm) rfl
    have hne : Symbol.number v ≠ s := fun he => hn ⟨v, he.symm⟩
    rw [List.count_append, hzero, Nat.zero_add, List.count_cons_of_ne hne, ih]

theorem screen_of_scans (h : Scans t ss) : screen t =
    if ss.count .opening = ss.count .closing then .ok t
    else .error (.unbalanced (ss.count .opening) (ss.count .closing)) := by
  have harith := isArithmetic_of_scans h
  have hplain : withPlainOperators t = t := by
    apply withPlainOperators_of_no_glyph
    intro c hc hg
    exact Bool.eq_false_iff.mp (not_isArithmetic_of_isGlyph hg) (harith c hc)
  have hopen : t.count '(' = ss.count .opening := by
    apply count_scans rfl _ (by simp [Symbol.IsNumber]) h
    intro c hc
    rw [symbolOf?.eq_def] at hc
    split at hc <;> simp_all
  have hclose : t.count ')' = ss.count .closing := by
    apply count_scans rfl _ (by simp [Symbol.IsNumber]) h
    intro c hc
    rw [symbolOf?.eq_def] at hc
    split at hc <;> simp_all
  simp only [screen, hplain, firstForeign?_eq_none harith, hopen, hclose]

theorem valueOfText_of_scans (h : Scans t ss) : Parser.valueOfText t = .ok v ↔
    ∃ tree, Derives .sum ss tree ∧ tree.nesting ≤ Parser.maxDepth ∧ tree.eval = v := by
  obtain ⟨tokens, hscan, rfl⟩ := scan_eq_ok_iff.mpr h
  rw [Parser.valueOfText, hscan]
  exact Parser.value_eq_ok_iff

/-- A text has no value where the scanner or the parser says so. -/
theorem valueOfText_eq_error_iff {why : SyntaxError} : Parser.valueOfText t = .error why ↔
    scan t = .error why ∨ ∃ tokens, scan t = .ok tokens ∧ Parser.value tokens = .error why := by
  rw [Parser.valueOfText]
  cases hscan : scan t with
  | error other => simp
  | ok tokens => simp

/-- A text with a value is a sentence of the grammar. -/
theorem exists_scans_of_valueOfText (h : Parser.valueOfText t = .ok v) :
    ∃ ss tree, Scans t ss ∧ Derives .sum ss tree := by
  rw [Parser.valueOfText] at h
  cases hscan : scan t with
  | error why =>
    rw [hscan] at h
    cases h
  | ok tokens =>
    rw [hscan] at h
    obtain ⟨tree, htree, -, -⟩ := Parser.value_eq_ok_iff.mp h
    exact ⟨_, tree, scan_eq_ok_iff.mp ⟨tokens, hscan, rfl⟩, htree⟩

/-- A blank text has no symbols. -/
theorem eq_nil_of_isBlank (h : Scans t ss) (hb : t.isBlank = true) : ss = [] := by
  have hall : ∀ c ∈ t, isBlank c = true := List.all_eq_true.mp hb
  induction h with
  | nil => rfl
  | blank _ _ ih =>
    have htail := fun c hc => hall c (List.mem_cons_of_mem _ hc)
    exact ih (List.all_eq_true.mpr htail) htail
  | symbol hc _ _ =>
    have hblank := hall _ List.mem_cons_self
    rw [not_isBlank_of_symbolOf? hc] at hblank
    cases hblank
  | number hl _ _ _ =>
    obtain ⟨c, l', rfl, hc⟩ := literal_cons hl
    have hblank := hall c (by simp)
    rw [not_isBlank_of_startsNumber hc] at hblank
    cases hblank

/-- What an evaluated text was: scanned, a sentence of the grammar, and finite. -/
theorem evaluate_eq_ok_iff : evaluate t p = .ok v ↔
    ∃ plain w, screen t = .ok plain ∧ Parser.valueOfText plain = .ok w ∧ w.isFinite = true ∧
      w.roundToPlaces p = v := by
  rw [evaluate]
  cases hscreen : screen t with
  | error why => simp
  | ok plain =>
    cases hvalue : Parser.valueOfText plain with
    | error why => simp [hvalue]
    | ok w => cases hw : w.isFinite <;> simp [hvalue, hw]

/-- Only the screen rejects. -/
theorem evaluate_eq_rejected_iff {why : Rejection} :
    evaluate t p = .error (.rejected why) ↔ screen t = .error why := by
  rw [evaluate]
  cases hscreen : screen t with
  | error other => simp
  | ok plain =>
    cases hvalue : Parser.valueOfText plain with
    | error other => simp [hvalue]
    | ok w => cases hw : w.isFinite <;> simp [hvalue, hw]

/-- What has passed the screen is malformed where the parser says so. -/
theorem evaluate_eq_malformed_iff {why : SyntaxError} : evaluate t p = .error (.malformed why) ↔
    ∃ plain, screen t = .ok plain ∧ Parser.valueOfText plain = .error why := by
  rw [evaluate]
  cases hscreen : screen t with
  | error other => simp
  | ok plain =>
    cases hvalue : Parser.valueOfText plain with
    | error other => simp [hvalue]
    | ok w => cases hw : w.isFinite <;> simp [hvalue, hw]

/-- Texts that are written in the same symbols have the same value. -/
theorem evaluate_of_scans (ht : Scans t ss) (hu : Scans u ss) (h : evaluate t p = .ok v) :
    evaluate u p = .ok v := by
  obtain ⟨plain, w, hscreen, hvalue, hfinite, hround⟩ := evaluate_eq_ok_iff.mp h
  rw [screen_of_scans ht] at hscreen
  split at hscreen
  · next hcount =>
    cases hscreen
    refine evaluate_eq_ok_iff.mpr ⟨u, w, ?_, ?_, hfinite, hround⟩
    · rw [screen_of_scans hu, if_pos hcount]
    · exact (valueOfText_of_scans hu).mpr ((valueOfText_of_scans ht).mp hvalue)
  · cases hscreen

end KeypadCalculator
