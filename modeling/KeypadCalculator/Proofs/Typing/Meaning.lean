import KeypadCalculator.Proofs.Expression.Screening
import KeypadCalculator.Proofs.Typing.Guards

/-! Typing an expression one character at a time keeps its value. -/

namespace KeypadCalculator

open Buffer Token

variable {b : Buffer} {c : Char} {l t u ds fs : Text} {ss : List Symbol} {v : Binary64} {p : Nat}

/-- A number may be typed here: it follows no point in its segment and no lone zero. -/
def Fresh (b : Buffer) : Prop := '.' ∉ b.segment ∧ b.newestFirst ≠ ['0']

theorem ne_point_of_isDigit (h : c.isDigit = true) : c ≠ '.' := by
  rintro rfl
  exact absurd h (by decide)

/-- Digits typed behind a text that is not a lone zero stay as they are. -/
theorem typed_digits (hds : ∀ c ∈ ds, c.isDigit = true) (hne : b.newestFirst ≠ [])
    (hz : b.newestFirst ≠ ['0']) :
    (ds.foldl append b).newestFirst = ds.reverse ++ b.newestFirst := by
  induction ds generalizing b with
  | nil => rfl
  | cons d ds ih =>
    have hd : d ≠ '.' := ne_point_of_isDigit (hds d (by simp))
    have hpush : b.append d = b.push d := appendBy_push (fun _ => hz) hd
    rw [List.foldl_cons, hpush, ih (fun c hc => hds c (by simp [hc])) (by simp [push])
      (by simp [push, hne])]
    simp [push]

theorem digitsValue_zero_cons (t : Text) : Text.digitsValue ('0' :: t) = Text.digitsValue t := by
  simp [Text.digitsValue, Nat.ofDigitChars_cons]

/-- Behind a lone zero only further zeros are dropped. -/
theorem typed_digits_zero (hds : ∀ c ∈ ds, c.isDigit = true) :
    ∃ es, (∀ c ∈ es, c.isDigit = true) ∧
      (ds.foldl append ⟨['0']⟩).newestFirst = es.reverse ++ ['0'] ∧
      ∀ fs, Text.digitsValue (es ++ fs) = Text.digitsValue (ds ++ fs) := by
  induction ds with
  | nil => exact ⟨[], by simp, rfl, fun fs => rfl⟩
  | cons d ds ih =>
    by_cases hd : d = '0'
    · subst hd
      obtain ⟨es, hes, heq, hval⟩ := ih fun c hc => hds c (by simp [hc])
      refine ⟨es, hes, ?_, ?_⟩
      · rw [List.foldl_cons, ← heq]
        rfl
      · intro fs
        rw [hval, List.cons_append, digitsValue_zero_cons]
    · refine ⟨d :: ds, hds, ?_, fun fs => rfl⟩
      have hpoint : d ≠ '.' := ne_point_of_isDigit (hds d (by simp))
      have hpush : append ⟨['0']⟩ d = push ⟨['0']⟩ d := appendBy_push (by simp [hd]) hpoint
      rw [List.foldl_cons, hpush, typed_digits (fun c hc => hds c (by simp [hc])) (by simp [push])
        (by simp [push])]
      simp [push]

/-- Typing digits where a number may start drops leading zeros at most, and never all of them. -/
theorem typed_whole (hds : ∀ c ∈ ds, c.isDigit = true) (hz : b.newestFirst ≠ ['0']) :
    ∃ es, (∀ c ∈ es, c.isDigit = true) ∧ (es = [] ↔ ds = []) ∧
      (ds.foldl append b).newestFirst = es.reverse ++ b.newestFirst ∧
      ∀ fs, Text.digitsValue (es ++ fs) = Text.digitsValue (ds ++ fs) := by
  by_cases hb : b.newestFirst = []
  · obtain rfl : b = empty := congrArg Buffer.mk hb
    cases ds with
    | nil => exact ⟨[], by simp, Iff.rfl, rfl, fun fs => rfl⟩
    | cons d ds =>
      have hd : d ≠ '.' := ne_point_of_isDigit (hds d (by simp))
      have hpush : append empty d = ⟨[d]⟩ := appendBy_push (by simp [empty]) hd
      have hds' : ∀ c ∈ ds, c.isDigit = true := fun c hc => hds c (by simp [hc])
      rw [List.foldl_cons, hpush]
      by_cases hzero : d = '0'
      · subst hzero
        obtain ⟨es, hes, heq, hval⟩ := typed_digits_zero hds'
        refine ⟨'0' :: es, by simpa using hes, by simp, by simp [heq, empty], ?_⟩
        intro fs
        rw [List.cons_append, List.cons_append, digitsValue_zero_cons, digitsValue_zero_cons, hval]
      · refine ⟨d :: ds, hds, Iff.rfl, ?_, fun fs => rfl⟩
        rw [typed_digits hds' (by simp) (by simpa using hzero)]
        simp [empty]
  · exact ⟨ds, hds, Iff.rfl, typed_digits hds hb hz, fun fs => rfl⟩

theorem not_endsNumber_of_isDigit (h : c.isDigit = true) : endsNumber c = false := by
  rw [← Bool.not_eq_true, endsNumber]
  intro hop
  simp only [List.mem_cons, List.not_mem_nil, or_false, decide_eq_true_eq] at hop
  rcases hop with rfl | rfl | rfl | rfl | rfl | rfl <;> exact absurd h (by decide)

/-- A literal typed where a number may start keeps its value. -/
theorem typed_literal (hl : Literal l t) (hv : literalValue? l = some v) (hb : Fresh b) :
    ∃ m, (l.foldl append b).newestFirst = m.reverse ++ b.newestFirst ∧
      literalValue? m = some v ∧
      ∀ u : Text, (∀ c ∈ u.head?, startsNumber c = false) → Literal m u := by
  cases hl with
  | whole hds hne ht =>
    obtain ⟨es, hes, hnil, heq, hval⟩ := typed_whole hds hb.2
    have hne' : es ≠ [] := fun h => hne (hnil.mp h)
    refine ⟨es, heq, ?_, fun u hu => .whole hes hne' hu⟩
    rw [literalValue?_whole hds, if_neg hne] at hv
    rw [literalValue?_whole hes, if_neg hne', ← hv]
    have := hval []
    simp only [List.append_nil] at this
    rw [this]
  | @point ds fs t hds hfs ht =>
    obtain ⟨es, hes, hnil, heq, hval⟩ := typed_whole hds hb.2
    have hseg : (ds.foldl append b).segment = es.reverse ++ b.segment :=
      segmentBy_append heq fun c hc => not_endsNumber_of_isDigit (hes c hc)
    have hpoint : '.' ∉ (ds.foldl append b).segment := by
      rw [hseg, List.mem_append, List.mem_reverse]
      exact fun h => h.elim (fun h => ne_point_of_isDigit (hes _ h) rfl) hb.1
    rw [literalValue?_point hds] at hv
    split at hv
    · cases hv
    · next hne =>
      rw [List.foldl_append, List.foldl_cons]
      by_cases hempty : (ds.foldl append b).segment = []
      · have hdot : (ds.foldl append b).append '.' = ((ds.foldl append b).push '0').push '.' :=
          appendBy_point_zero hempty
        have hes' : es = [] := by
          rw [hempty] at hseg
          simpa using (List.append_eq_nil_iff.mp hseg.symm).1
        refine ⟨['0'] ++ '.' :: fs, ?_, ?_, ?_⟩
        · rw [hdot, typed_digits hfs (by simp [push]) (by simp [push])]
          simp [push, heq, hes']
        · rw [literalValue?_point (by simp), if_neg (by simp), ← hv, ← hval, hes']
          rw [List.cons_append, digitsValue_zero_cons]
        · intro u hu
          exact .point (by simp) hfs fun c hc => (Bool.or_eq_false_iff.mp (hu c hc)).1
      · have hdot : (ds.foldl append b).append '.' = (ds.foldl append b).push '.' :=
          appendBy_point hpoint hempty
        refine ⟨es ++ '.' :: fs, ?_, ?_, ?_⟩
        · rw [hdot, typed_digits hfs (by simp [push]) (by simp [push])]
          simp [push, heq]
        · have hne' : es ++ fs ≠ [] := by
            intro h
            obtain ⟨he, hf⟩ := List.append_eq_nil_iff.mp h
            exact hne (by rw [hnil.mp he, hf]; rfl)
          rw [literalValue?_point hes, if_neg hne', ← hv, hval]
        · intro u hu
          exact .point hes hfs fun c hc => (Bool.or_eq_false_iff.mp (hu c hc)).1

/-- The symbols do not go on with a number. -/
def NumberDone (ss : List Symbol) : Prop := ∀ s ∈ ss.head?, ¬ s.IsNumber

/-- What does not start with a number does not go on with one in writing. -/
theorem startsNumber_of_numberDone (h : Scans u ss) (hss : NumberDone ss) :
    ∀ c ∈ u.head?, startsNumber c = false := by
  intro c hc
  cases h with
  | nil => cases hc
  | blank hb _ =>
    obtain rfl := Option.some.inj hc
    exact not_startsNumber_of_isBlank hb
  | symbol hs _ =>
    obtain rfl := Option.some.inj hc
    exact startsNumber_of_symbolOf? hs
  | number => exact absurd ⟨_, rfl⟩ (hss _ rfl)

theorem append_blank (h : isBlank c = true) (b : Buffer) : b.append c = b.push c := by
  refine appendBy_push ?_ ?_ <;> rintro rfl <;> exact absurd h (by decide)

theorem append_symbol {s : Symbol} (h : symbolOf? c = some s) (b : Buffer) :
    b.append c = b.push c := by
  refine appendBy_push ?_ ?_ <;> rintro rfl <;> cases h

theorem endsNumber_of_symbolOf? {s : Symbol} (h : symbolOf? c = some s) : endsNumber c = true := by
  rw [symbolOf?.eq_def] at h
  split at h <;> first | decide | cases h

theorem fresh_push_blank (h : isBlank c = true) (hb : Fresh b) : Fresh (b.push c) := by
  have hne : c ≠ '0' ∧ c ≠ '.' := by
    constructor <;> rintro rfl <;> exact absurd h (by decide)
  refine ⟨?_, by simp [push, hne.1]⟩
  have hseg : (b.push c).segment = if endsNumber c then [] else c :: b.segment := segmentBy_push
  rw [hseg]
  split
  · simp
  · simpa [Ne.symm hne.2] using hb.1

theorem fresh_push_symbol {s : Symbol} (h : symbolOf? c = some s) (b : Buffer) :
    Fresh (b.push c) := by
  have hseg : (b.push c).segment = if endsNumber c then [] else c :: b.segment := segmentBy_push
  refine ⟨by simp [hseg, endsNumber_of_symbolOf? h], ?_⟩
  intro he
  obtain ⟨rfl, -⟩ := List.cons.inj he
  cases h

/-- Typing keeps the symbols of a text in which no two numbers stand side by side. A number may
start behind anything but a number, which is what the induction carries. -/
theorem scans_typed (h : Scans t ss) (hapart : ss.IsChain Apart) (hb : NumberDone ss ∨ Fresh b) :
    ∃ u, (t.foldl append b).newestFirst = u.reverse ++ b.newestFirst ∧ Scans u ss := by
  induction h generalizing b with
  | nil => exact ⟨[], rfl, .nil⟩
  | @blank c t ss hc ht ih =>
    have hb' : NumberDone ss ∨ Fresh (b.push c) := hb.imp_right fun hf => fresh_push_blank hc hf
    obtain ⟨u, hu, hss⟩ := ih hapart hb'
    exact ⟨c :: u, by rw [List.foldl_cons, append_blank hc, hu]; simp [push], .blank hc hss⟩
  | @symbol c t s ss hs ht ih =>
    obtain ⟨u, hu, hss⟩ := ih hapart.tail (Or.inr (fresh_push_symbol hs b))
    exact ⟨c :: u, by rw [List.foldl_cons, append_symbol hs, hu]; simp [push], .symbol hs hss⟩
  | @number l t v ss hl hv ht ih =>
    have hfresh : Fresh b := hb.resolve_left fun h => h _ rfl ⟨v, rfl⟩
    obtain ⟨m, hm, hmv, hlit⟩ := typed_literal hl hv hfresh
    have hdone : NumberDone ss := by
      intro s hs hn
      exact (List.isChain_cons.mp hapart).1 s hs ⟨⟨v, rfl⟩, hn⟩
    obtain ⟨u, hu, hss⟩ := ih (b := l.foldl append b) hapart.tail (Or.inl hdone)
    refine ⟨m ++ u, by rw [List.foldl_append, hu, hm]; simp, ?_⟩
    exact .number (hlit u (startsNumber_of_numberDone hss hdone)) hmv hss

theorem evaluate_min (t : Text) (p : Nat) : evaluate t (min p maxPrecision) = evaluate t p := by
  have hround : ∀ w : Binary64, w.roundToPlaces (min p maxPrecision) = w.roundToPlaces p := by
    intro w
    simp only [Binary64.roundToPlaces, Nat.min_assoc, Nat.min_self]
  simp only [evaluate, hround]

/-- A screened text is the given one with plain operators. -/
theorem screen_eq_ok {plain : Text} (h : screen t = .ok plain) : plain = withPlainOperators t := by
  simp only [screen] at h
  split at h
  · cases h
  · split at h <;> cases h
    rfl

/-- A text without glyphs that has a value keeps it when it is typed into a fresh calculator. -/
theorem evaluate_typed (hg : ∀ c ∈ t, ¬ IsGlyph c) (h : evaluate t p = .ok v) :
    ((Calculator.withPrecision p).typeText t).evaluate.1 = .ok (some v) := by
  obtain ⟨plain, w, hscreen, hvalue, -, -⟩ := evaluate_eq_ok_iff.mp h
  obtain rfl : plain = t := (screen_eq_ok hscreen).trans (withPlainOperators_of_no_glyph hg)
  obtain ⟨ss, tree, ht, htree⟩ := exists_scans_of_valueOfText hvalue
  have hfresh : Fresh empty := by simp [Fresh, Buffer.segment, empty]
  obtain ⟨u, hu, hus⟩ := scans_typed (b := empty) ht htree.apart (Or.inr hfresh)
  have htext : (typed plain).text = u := by
    rw [typed, Buffer.text, hu]
    simp [empty]
  have hblank : u.isBlank = false := by
    rw [← Bool.not_eq_true]
    exact fun hb => htree.ne_nil (eq_nil_of_isBlank hus hb)
  have heval : evaluate u (min p maxPrecision) = .ok v := by
    rw [evaluate_min]
    exact evaluate_of_scans ht hus h
  rw [typeText_withPrecision]
  simp only [Calculator.evaluate, Calculator.text, htext, hblank]
  simp [Calculator.withPrecision, heval]

/-- Leading zeros go and a zero comes before a point, and the value stays. -/
theorem evaluate_typed_zeros :
    evaluate "007+.5*(00.25-.5)".toList 12 = .ok (Binary64.ofDecimal 6875 3) ∧
      ((Calculator.withPrecision 12).typeText "007+.5*(00.25-.5)".toList).evaluate.1 =
        .ok (some (Binary64.ofDecimal 6875 3)) := by
  have h : evaluate "007+.5*(00.25-.5)".toList 12 = .ok (Binary64.ofDecimal 6875 3) := by
    decide +kernel
  have hg : ∀ c ∈ "007+.5*(00.25-.5)".toList, ¬ IsGlyph c := by simp [isGlyph_iff]
  exact ⟨h, evaluate_typed hg h⟩

end KeypadCalculator
