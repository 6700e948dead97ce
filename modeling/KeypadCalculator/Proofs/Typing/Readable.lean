import KeypadCalculator.Proofs.Typing.Typable

/-! What is typed with keys alone is written in symbols: no point is left without a digit. -/

namespace KeypadCalculator

open Buffer Token

variable {c : Char} {s t u : Text} {before after : Text}

/-- The characters that keys and buttons type. -/
def isKeyChar (c : Char) : Bool := c.isDigit || c ∈ ['+', '-', '*', '/', '(', ')', '.']

/-- Within a number there are digits and points. -/
theorem isDigit_or_point (h : isKeyChar c = true) (he : endsNumber c = false) :
    c.isDigit = true ∨ c = '.' := by
  simp [isKeyChar, endsNumber] at h he
  tauto

theorem not_isBlank_of_isKeyChar (h : isKeyChar c = true) : isBlank c = false := by
  rw [isKeyChar, Bool.or_eq_true] at h
  rcases h with h | h
  · exact not_isBlank_of_startsNumber (startsNumber_of_isDigit h)
  · have hall : ['+', '-', '*', '/', '(', ')', '.'].all (fun d => !isBlank d) = true := by decide
    simpa using List.all_eq_true.mp hall c (of_decide_eq_true h)

theorem exists_symbolOf? (h : endsNumber c = true) : ∃ symbol, symbolOf? c = some symbol := by
  simp only [endsNumber, decide_eq_true_eq, List.mem_cons, List.not_mem_nil, or_false] at h
  rcases h with rfl | rfl | rfl | rfl | rfl | rfl <;> exact ⟨_, rfl⟩

theorem not_startsNumber_of_endsNumber (h : endsNumber c = true) : startsNumber c = false := by
  obtain ⟨symbol, hsymbol⟩ := exists_symbolOf? h
  exact startsNumber_of_symbolOf? hsymbol

/-- A segment that is not empty is a literal, with a digit before its point. -/
theorem exists_literal (hs : ∀ c ∈ s, c.isDigit = true ∨ c = '.') (hg : GuardsPoint s)
    (hne : s ≠ []) (ht : ∀ c ∈ t.head?, startsNumber c = false) :
    ∃ v, Literal s t ∧ literalValue? s = some v := by
  have hdigit : ∀ u : Text, (∀ c ∈ u, c ∈ s) → '.' ∉ u → ∀ c ∈ u, c.isDigit = true := by
    intro u hu hpoint c hc
    rcases hs c (hu c hc) with h | rfl
    · exact h
    · exact absurd hc hpoint
  by_cases hpoint : '.' ∈ s
  · obtain ⟨ds, fs, rfl⟩ := List.append_of_mem hpoint
    have hcount := hg.1
    rw [List.count_append, List.count_cons_self] at hcount
    have hds := hdigit ds (by simp +contextual) (List.count_eq_zero.mp (by omega))
    have hfs := hdigit fs (by simp +contextual) (List.count_eq_zero.mp (by omega))
    have hsome : ds ++ fs ≠ [] := by
      rintro h
      obtain ⟨rfl, rfl⟩ := List.append_eq_nil_iff.mp h
      exact hg.2 rfl
    refine ⟨_, .point hds hfs ?_, by rw [literalValue?_point hds, if_neg hsome]⟩
    intro c hc
    exact (Bool.or_eq_false_iff.mp (ht c hc)).1
  · have hds := hdigit s (fun _ hc => hc) hpoint
    exact ⟨_, .whole hds hne ht, by rw [literalValue?_whole hds, if_neg hne]⟩

/-- A text is its first segment, with a character that ends numbers behind it if more follows. -/
theorem exists_first_segment (t : Text) : ∃ s, (∀ c ∈ s, endsNumber c = false) ∧
    (t = s ∨ ∃ e rest, endsNumber e = true ∧ t = s ++ e :: rest) := by
  induction t with
  | nil => exact ⟨[], by simp, Or.inl rfl⟩
  | cons c t ih =>
    cases he : endsNumber c with
    | true => exact ⟨[], by simp, Or.inr ⟨c, t, he, rfl⟩⟩
    | false =>
      obtain ⟨s, hs, ht⟩ := ih
      refine ⟨c :: s, by simpa [he] using hs, ?_⟩
      rcases ht with rfl | ⟨e, rest, hends, rfl⟩
      · exact Or.inl rfl
      · exact Or.inr ⟨e, rest, hends, rfl⟩

/-- A segment in front of what is written in symbols is at most one symbol more. -/
theorem exists_scans_segment {ss : List Symbol} (hkeys : ∀ c ∈ s, isKeyChar c = true)
    (hends : ∀ c ∈ s, endsNumber c = false) (hg : GuardsPoint s) (hu : Scans u ss)
    (hhead : ∀ c ∈ u.head?, startsNumber c = false) : ∃ ss, Scans (s ++ u) ss := by
  by_cases hne : s = []
  · subst hne
    exact ⟨ss, hu⟩
  · have hs := fun c hc => isDigit_or_point (hkeys c hc) (hends c hc)
    obtain ⟨v, hl, hv⟩ := exists_literal hs hg hne hhead
    exact ⟨_, .number hl hv hu⟩

/-- Segment by segment, a text of keys with guarded points is written in symbols. -/
theorem exists_scans (hkeys : ∀ c ∈ t, isKeyChar c = true)
    (hpoints : ∀ s ∈ t.splitOnP endsNumber, GuardsPoint s) : ∃ ss, Scans t ss := by
  induction hlen : t.length using Nat.strongRecOn generalizing t with
  | ind n ih =>
    obtain ⟨s, hs, rfl | ⟨e, rest, he, rfl⟩⟩ := exists_first_segment t
    · rw [List.splitOnP_eq_singleton hs] at hpoints
      rw [← List.append_nil t]
      exact exists_scans_segment hkeys hs (hpoints t (by simp)) .nil (by simp)
    · rw [List.splitOnP_append_cons _ _ he, List.splitOnP_eq_singleton hs] at hpoints
      have hshort : rest.length < n := by
        simp only [List.length_append, List.length_cons] at hlen
        omega
      have hrest : ∀ c ∈ rest, isKeyChar c = true := fun c hc => hkeys c (by simp [hc])
      obtain ⟨ss, hss⟩ := ih rest.length hshort hrest
        (fun r hr => hpoints r (by simp [hr])) rfl
      obtain ⟨symbol, hsymbol⟩ := exists_symbolOf? he
      have hhead : ∀ c ∈ (e :: rest).head?, startsNumber c = false := by
        intro c hc
        obtain rfl := Option.some.inj hc
        exact not_startsNumber_of_endsNumber he
      exact exists_scans_segment (fun c hc => hkeys c (by simp [hc])) hs (hpoints s (by simp))
        (.symbol hsymbol hss) hhead

theorem Typable.of_append (h : Typable (t ++ u)) : Typable t := by
  induction u using List.reverseRecOn with
  | nil => rwa [List.append_nil] at h
  | append_singleton u c ih =>
    rw [← List.append_assoc, ← text_ofText (t ++ u), ← text_push] at h
    have hpush := (typable_push.mp h).1
    rw [text_ofText] at hpush
    exact ih hpush

/-- Directly before a point stands a digit. -/
theorem digit_before_point (h : Typable t) (hkeys : ∀ c ∈ t, isKeyChar c = true)
    (hsplit : t = before ++ '.' :: after) : ∃ d ∈ before.getLast?, d.isDigit = true := by
  rw [List.append_cons] at hsplit
  have hpush : Typable ((ofText before).push '.').text := by
    rw [text_push, text_ofText]
    exact (hsplit ▸ h).of_append
  obtain ⟨hpoint, hne⟩ := (typable_push.mp hpush).2.2 rfl
  cases hlast : before.reverse with
  | nil => simp [Buffer.segment, ofText, hlast] at hne
  | cons d rest =>
    have hd : endsNumber d = false := by
      rw [← Bool.not_eq_true]
      intro he
      simp [Buffer.segment, ofText, hlast, he] at hne
    have hmem : d ∈ (ofText before).segment := by simp [Buffer.segment, ofText, hlast, hd]
    have hkey : isKeyChar d = true := by
      apply hkeys
      rw [hsplit, List.append_assoc, List.mem_append]
      exact Or.inl (List.mem_reverse.mp (by simp [hlast]))
    refine ⟨d, ?_, (isDigit_or_point hkey hd).resolve_right ?_⟩
    · rw [← List.head?_reverse, hlast]
      rfl
    · rintro rfl
      exact hpoint hmem

end KeypadCalculator
