import KeypadCalculator.Proofs.Binary64.Written
import KeypadCalculator.Proofs.Calculator.Reachable
import KeypadCalculator.Proofs.Typing.Meaning

/-! The texts that can stand in the buffer of a calculator: just those that typing leaves alone. -/

namespace KeypadCalculator

open Buffer

variable {b : Buffer} {c : Char} {s t : Text} {p : ℕ} {k : Calculator}

/-- At most one point, and not in front. -/
def GuardsPoint (s : Text) : Prop := s.count '.' ≤ 1 ∧ s.head? ≠ some '.'

/-- Not two zeros in front, and the point guarded in every segment between operators and
parentheses. -/
structure Typable (t : Text) : Prop where
  zeros : ¬ ['0', '0'] <+: t
  points : ∀ s ∈ t.splitOnP endsNumber, GuardsPoint s

theorem guardsPoint_nil : GuardsPoint [] := by simp [GuardsPoint]

theorem guardsPoint_concat : GuardsPoint (s ++ [c]) ↔
    GuardsPoint s ∧ (c = '.' → '.' ∉ s ∧ s ≠ []) := by
  have hhead : (s ++ [c]).head? = some '.' ↔ s.head? = some '.' ∨ (s = [] ∧ c = '.') := by
    cases s <;> simp
  by_cases hc : c = '.'
  · subst hc
    have hmem : s.head? = some '.' → s.count '.' ≠ 0 := by
      intro h hzero
      exact List.count_eq_zero.mp hzero (List.mem_of_head? h)
    rw [GuardsPoint, GuardsPoint, ne_eq, hhead, ← List.count_eq_zero, List.count_append,
      List.count_singleton_self]
    constructor
    · rintro ⟨hle, hnot⟩
      exact ⟨⟨by omega, by tauto⟩, fun _ => ⟨by omega, by tauto⟩⟩
    · rintro ⟨⟨-, hnot⟩, hlast⟩
      obtain ⟨hzero, hne⟩ := hlast rfl
      exact ⟨by omega, by tauto⟩
  · rw [GuardsPoint, GuardsPoint, ne_eq, hhead, List.count_append, List.count_singleton,
      if_neg (by simpa using hc)]
    simp [hc]

theorem not_endsNumber_of_mem_segment (hc : c ∈ (ofText t).segment) : endsNumber c = false := by
  simpa using List.mem_takeWhile_imp hc

/-- A text is its last segment, behind a character that ends numbers if more is before it. -/
theorem eq_segment_or (t : Text) : t = (ofText t).segment.reverse ∨
    ∃ done e, endsNumber e = true ∧ t = done ++ e :: (ofText t).segment.reverse := by
  have hsplit := List.takeWhile_append_dropWhile (p := fun c => !endsNumber c) (l := t.reverse)
  cases hrest : t.reverse.dropWhile fun c => !endsNumber c with
  | nil =>
    rw [hrest, List.append_nil] at hsplit
    exact Or.inl (List.reverse_eq_iff.mp hsplit.symm)
  | cons e rest =>
    have he : endsNumber e = true := by
      have h := List.head?_dropWhile_not (fun c => !endsNumber c) t.reverse
      rw [hrest] at h
      simpa using h
    rw [hrest] at hsplit
    refine Or.inr ⟨rest.reverse, e, he, ?_⟩
    calc t = t.reverse.reverse := (List.reverse_reverse t).symm
      _ = ((ofText t).segment ++ e :: rest).reverse := congrArg List.reverse hsplit.symm
      _ = rest.reverse ++ e :: (ofText t).segment.reverse := by simp

/-- Whatever goes on with the last number only adds to the last segment. -/
theorem exists_splitOnP (t : Text) : ∃ done, ∀ u, (∀ c ∈ u, endsNumber c = false) →
    (t ++ u).splitOnP endsNumber = done ++ [(ofText t).segment.reverse ++ u] := by
  have hnumber : ∀ u, (∀ c ∈ u, endsNumber c = false) →
      ((ofText t).segment.reverse ++ u).splitOnP endsNumber =
        [(ofText t).segment.reverse ++ u] := by
    intro u hu
    apply List.splitOnP_eq_singleton
    intro c hc
    rcases List.mem_append.mp hc with hc | hc
    · exact not_endsNumber_of_mem_segment (List.mem_reverse.mp hc)
    · exact hu c hc
  rcases eq_segment_or t with ht | ⟨done, e, he, ht⟩
  · refine ⟨[], fun u hu => ?_⟩
    conv_lhs => rw [ht]
    exact hnumber u hu
  · refine ⟨done.splitOnP endsNumber, fun u hu => ?_⟩
    conv_lhs => rw [ht, List.append_assoc, List.cons_append]
    rw [List.splitOnP_append_cons _ _ he, hnumber u hu]

theorem points_concat : (∀ s ∈ (t ++ [c]).splitOnP endsNumber, GuardsPoint s) ↔
    (∀ s ∈ t.splitOnP endsNumber, GuardsPoint s) ∧
      (c = '.' → '.' ∉ (ofText t).segment ∧ (ofText t).segment ≠ []) := by
  cases he : endsNumber c with
  | true =>
    have hc : c ≠ '.' := by
      rintro rfl
      cases he
    rw [List.splitOnP_append_cons t [] he, List.splitOnP_nil]
    simp [or_imp, forall_and, guardsPoint_nil, hc]
  | false =>
    obtain ⟨done, hdone⟩ := exists_splitOnP t
    have hnow := hdone [] (by simp)
    have hnext := hdone [c] (by simpa using he)
    rw [List.append_nil, List.append_nil] at hnow
    rw [hnow, hnext]
    simp [or_imp, forall_and, guardsPoint_concat, and_assoc]

theorem zeros_prefix_concat :
    ['0', '0'] <+: t ++ [c] ↔ (c = '0' ∧ t = ['0']) ∨ ['0', '0'] <+: t := by
  rw [List.prefix_concat_iff]
  apply or_congr_left
  constructor
  · intro h
    have h' : ['0'] ++ ['0'] = t ++ [c] := h
    obtain ⟨rfl, hc⟩ := List.append_inj' h' rfl
    exact ⟨(List.singleton_inj.mp hc).symm, rfl⟩
  · rintro ⟨rfl, rfl⟩
    rfl

theorem typable_nil : Typable [] :=
  ⟨by simp, by simp [List.splitOnP_nil, guardsPoint_nil]⟩

instance (s : Text) : Decidable (GuardsPoint s) :=
  inferInstanceAs (Decidable (_ ∧ _))

instance (t : Text) : Decidable (Typable t) :=
  decidable_of_iff (¬ ['0', '0'] <+: t ∧ ∀ s ∈ t.splitOnP endsNumber, GuardsPoint s)
    ⟨fun h => ⟨h.1, h.2⟩, fun h => ⟨h.zeros, h.points⟩⟩

/-- A typable text goes on with just what the guards of typing let through. -/
theorem typable_push : Typable (b.push c).text ↔ Typable b.text ∧ b.Admits c := by
  have hlone : b.text = ['0'] ↔ b.newestFirst = ['0'] := by
    rw [Buffer.text, List.reverse_eq_iff]
    rfl
  have hzeros := not_congr (zeros_prefix_concat (t := b.text) (c := c))
  have hpoints := points_concat (t := b.text) (c := c)
  rw [not_or, hlone] at hzeros
  rw [ofText_text] at hpoints
  rw [text_push]
  constructor
  · rintro ⟨hz, hp⟩
    exact ⟨⟨(hzeros.mp hz).2, (hpoints.mp hp).1⟩, (hzeros.mp hz).1, (hpoints.mp hp).2⟩
  · rintro ⟨⟨hz, hp⟩, hzero, hpoint⟩
    exact ⟨hzeros.mpr ⟨hzero, hz⟩, hpoints.mpr ⟨hp, hpoint⟩⟩

theorem typable_dropLast (h : Typable b.text) : Typable b.dropLast.text := by
  obtain ⟨newestFirst⟩ := b
  cases newestFirst with
  | nil => exact h
  | cons c rest => exact (typable_push.mp h).1

theorem typable_append (h : Typable b.text) (c : Char) : Typable (b.append c).text := by
  by_cases hadmits : b.Admits c
  · rw [append_of_admits hadmits]
    exact typable_push.mpr ⟨h, hadmits⟩
  rcases append_of_not_admits hadmits with he | ⟨rfl, hnil, he⟩
  · rwa [he]
  · have hfresh : b.newestFirst ≠ ['0'] := by
      intro hlone
      rw [Buffer.segment, hlone] at hnil
      cases hnil
    have hsegment : (b.push '0').segment = '0' :: b.segment := segmentBy_push
    have hwhole : Typable (b.push '0').text :=
      typable_push.mpr ⟨h, fun hlone => hfresh hlone.2, by simp⟩
    rw [he]
    exact typable_push.mpr ⟨hwhole, by simp, fun _ => by simp [hsegment, hnil]⟩

/-- Typing leaves a typable text alone, for its guards find nothing to do. -/
theorem typed_of_typable (h : Typable t) : typed t = ofText t := by
  induction t using List.reverseRecOn with
  | nil => rfl
  | append_singleton t c ih =>
    have hpush : ofText (t ++ [c]) = (ofText t).push c := by simp [ofText, push]
    rw [← text_ofText (t ++ [c]), hpush] at h
    obtain ⟨ht, hadmits⟩ := typable_push.mp h
    rw [text_ofText] at ht
    rw [typed, List.foldl_append, ← typed, ih ht, hpush]
    exact append_of_admits hadmits

/-- No text starts with two zeros because of its whole part. -/
theorem IsWhole.not_prefix (h : IsWhole t) {rest : Text} (hrest : rest.head? ≠ some '0') :
    ¬ ['0', '0'] <+: t ++ rest := by
  rintro ⟨tail, htail⟩
  obtain ⟨d, ds, rfl⟩ := List.exists_cons_of_ne_nil h.nonempty
  obtain ⟨rfl, hnext⟩ : '0' = d ∧ '0' :: tail = ds ++ rest := by simpa using htail
  obtain rfl : ds = [] := by simpa using h.lead rfl
  rw [List.nil_append] at hnext
  exact hrest (by rw [← hnext]; rfl)

/-- Digits and a point are one segment. -/
theorem PlainDecimal.one_segment (h : PlainDecimal t) :
    (∀ c ∈ t, endsNumber c = false) ∧ GuardsPoint t ∧ ¬ ['0', '0'] <+: t := by
  cases h with
  | whole hds =>
    have hpoint := not_mem_digits hds.digits
    refine ⟨fun c hc => not_endsNumber_of_isDigit (hds.digits c hc), ⟨?_, ?_⟩, ?_⟩
    · rw [List.count_eq_zero.mpr hpoint]
      exact Nat.zero_le 1
    · exact fun hhead => hpoint (List.mem_of_head? hhead)
    · rw [← List.append_nil t]
      exact hds.not_prefix (by simp)
  | @point ds fs hds hfs =>
    have hpoint := not_mem_digits hds.digits
    refine ⟨?_, ⟨?_, ?_⟩, hds.not_prefix (by simp)⟩
    · intro c hc
      rw [List.mem_append, List.mem_cons] at hc
      rcases hc with hc | rfl | hc
      · exact not_endsNumber_of_isDigit (hds.digits c hc)
      · decide
      · exact not_endsNumber_of_isDigit (hfs.digits c hc)
    · rw [List.count_append, List.count_cons_self, List.count_eq_zero.mpr hpoint,
        List.count_eq_zero.mpr (not_mem_digits hfs.digits)]
    · rw [List.head?_append_of_ne_nil _ hds.nonempty]
      exact fun hhead => hpoint (List.mem_of_head? hhead)

/-- What a number is written as could have been typed. -/
theorem PlainNumber.typable (h : PlainNumber t) : Typable t := by
  cases h with
  | positive h =>
    obtain ⟨hends, hguards, hzeros⟩ := h.one_segment
    refine ⟨hzeros, ?_⟩
    rw [List.splitOnP_eq_singleton hends]
    simpa using hguards
  | @negative t h _ =>
    obtain ⟨hends, hguards, -⟩ := h.one_segment
    have hsplit : ('-' :: t).splitOnP endsNumber = [[], t] := by
      rw [List.splitOnP_cons_eq_if_modifyHead, if_pos (by decide),
        List.splitOnP_eq_singleton hends]
    refine ⟨by simp, ?_⟩
    rw [hsplit]
    simpa [guardsPoint_nil] using hguards

namespace Calculator

theorem typable_press (h : Typable k.text) (a : Action) : Typable (k.press a).text := by
  cases a with
  | append typed => exact typable_append h typed
  | erase => exact typable_dropLast h
  | clear => exact typable_nil
  | evaluate =>
    rw [press]
    rcases evaluate_cases k with ⟨-, he⟩ | ⟨-, ⟨value, hvalue, he⟩ | ⟨why, -, he⟩⟩
    · rwa [he]
    · have htext : k.evaluate.2.text = value.text := by
        rw [he]
        exact text_ofText _
      rw [htext]
      exact (Binary64.plainNumber_text (isFinite_of_evaluate hvalue)).typable
    · rw [he]
      cases hkeeps : why.keepsText with
      | true => exact h
      | false => exact typable_nil

theorem Reachable.typable (h : Reachable p k) : Typable k.text := by
  induction h with
  | start => exact typable_nil
  | press a _ ih => exact typable_press ih a

theorem text_typeText (q : ℕ) (t : Text) :
    ((withPrecision q).typeText t).text = (typed t).text := by
  rw [typeText_withPrecision]
  rfl

/-- The texts that keys lead to are the typable ones. Typing such a text again gives the text, and
so typing what was typed changes nothing. -/
theorem reachable_text_iff (p : ℕ) (t : Text) :
    ((∃ k, Reachable p k ∧ k.text = t) ↔ Typable t) ∧
      (∀ k, Reachable p k → ∀ q, ((withPrecision q).typeText k.text).text = k.text) ∧
      ∀ q, ((withPrecision q).typeText ((withPrecision q).typeText t).text).text =
        ((withPrecision q).typeText t).text := by
  have hagain : ∀ r k, Reachable r k → ∀ q, ((withPrecision q).typeText k.text).text = k.text := by
    intro r k h q
    rw [text_typeText, typed_of_typable h.typable, text_ofText]
  refine ⟨⟨?_, ?_⟩, hagain p, fun q => hagain q _ (Reachable.start.typeText t) q⟩
  · rintro ⟨k, h, rfl⟩
    exact h.typable
  · intro h
    refine ⟨_, Reachable.start.typeText t, ?_⟩
    rw [text_typeText, typed_of_typable h, text_ofText]

/-- A result may be typed, and the text it came from as well. -/
theorem reachable_text_typed :
    let k := ((withPrecision 3).typeText "2/-3".toList).press .evaluate
    k.text = "-0.667".toList ∧ Typable k.text ∧
      ((withPrecision 15).typeText k.text).text = k.text := by
  intro k
  have hreach : Reachable 3 k := (Reachable.start.typeText _).press .evaluate
  obtain ⟨htypable, hagain, -⟩ := reachable_text_iff 3 k.text
  exact ⟨by decide +kernel, htypable.mp ⟨k, hreach, rfl⟩, hagain k hreach 15⟩

/-- A glyph does not end a segment. -/
example : ¬ Typable "1.5×2.5".toList ∧ Typable "1.5*2.5".toList := by decide

end Calculator

end KeypadCalculator
