import Mathlib.Tactic.SplitIfs
import KeypadCalculator.Toml.Writer
import KeypadCalculator.Proofs.Toml.Strings

/-! A quoted string is a string of the grammar, whatever kind of quotes it was written in. -/

namespace KeypadCalculator.Toml

variable {c q : Char} {n longest : ℕ} {t u rest : Text}

/-- Four hexadecimal digits hold the code of any character that is not plain. -/
theorem escaped_of_not_isPlain (h : isPlain c = false) :
    Escaped c ['u', '0', '0', upperHexDigit (c.toNat / 16), upperHexDigit (c.toNat % 16)] := by
  have hsmall : c.toNat < 128 := by
    simp [isPlain] at h
    grind
  have hhigh : c.toNat / 16 < 16 := by omega
  have hlow : c.toNat % 16 < 16 := by omega
  have hnumber : number 16 [0, 0, c.toNat / 16, c.toNat % 16] = c.toNat := by
    simp [number]
    omega
  have hdigits : List.Forall₂ (IsDigit 16) [0, 0, c.toNat / 16, c.toNat % 16]
      ['0', '0', upperHexDigit (c.toNat / 16), upperHexDigit (c.toNat % 16)] :=
    .cons ⟨by decide, .inl rfl⟩ (.cons ⟨by decide, .inl rfl⟩
      (.cons ⟨hhigh, .inr rfl⟩ (.cons ⟨hlow, .inr rfl⟩ .nil)))
  exact .numbered (by simp) rfl hdigits hnumber

theorem letter_escape (h : c ≠ '"') : Letter c (escape c) := by
  unfold escape
  split
  case h_7 hslash =>
    split_ifs with hplain
    · exact .plain hplain h hslash
    · exact .escaped (escaped_of_not_isPlain (Bool.not_eq_true _ ▸ hplain))
  all_goals exact .escaped (.named (by decide))

theorem letter_escapeInLine (c : Char) : Letter c (escapeInLine c) := by
  unfold escapeInLine
  split_ifs with h
  · subst h
    exact .escaped (.named (by decide))
  · exact letter_escape h

theorem letters_escapeInLine (t : Text) : Letters t (t.flatMap escapeInLine) := by
  induction t with
  | nil => exact .nil
  | cons c t ih => exact .cons (letter_escapeInLine c) ih

theorem parts_escapeLines (t : Text) (hn : n ≤ 2) : Parts '"' BasicPart n t (escapeLines n t) := by
  induction t generalizing n with
  | nil => exact .nil
  | cons c t ih =>
    have hrest := ih (Nat.zero_le 2)
    by_cases hquote : c = '"'
    · subst hquote
      rw [escapeLines]
      split_ifs with htwo
      · exact .part (.letter (letter_escapeInLine '"')) hrest
      · exact .quote (by omega) (ih (by omega))
    · by_cases hbreak : c = '\n'
      · subst hbreak
        exact .part (.break .lineFeed) hrest
      · rw [escapeLines]
        · exact .part (.letter (letter_escape hquote)) hrest
        · exact hquote
        · exact hbreak

theorem le_longestRunFrom (c : Char) (n longest : ℕ) (t : Text) :
    longest ≤ longestRunFrom c n longest t := by
  induction t generalizing n longest with
  | nil => exact le_rfl
  | cons d t ih =>
    rw [longestRunFrom]
    split_ifs
    · exact (le_max_left _ _).trans (ih _ _)
    · exact ih _ _

theorem parts_literal (hrun : longestRunFrom '\'' n longest t ≤ 2)
    (hplain : ∀ c ∈ t, isPlain c ∨ c = '\n') : Parts '\'' LiteralPart n t t := by
  induction t generalizing n longest with
  | nil => exact .nil
  | cons c t ih =>
    obtain ⟨hc, htail⟩ := List.forall_mem_cons.mp hplain
    by_cases hquote : c = '\''
    · subst hquote
      rw [longestRunFrom, if_pos rfl] at hrun
      have hlonger : n + 1 ≤ 2 := (le_max_right _ _).trans ((le_longestRunFrom _ _ _ _).trans hrun)
      exact .quote (by omega) (ih hrun htail)
    · rw [longestRunFrom, if_neg hquote] at hrun
      rcases hc with hc | rfl
      · exact .part (.plain hc hquote) (ih hrun htail)
      · exact .part (.break .lineFeed) (ih hrun htail)

/-- A line break behind opening quotes is not content, whether or not it was written. -/
theorem fence_openLines {Part : Text → Text → Text → Prop} (h : Parts q Part 0 t u)
    (hhead : '\n' ∉ t → ∀ c ∈ u.head?, c ≠ '\n' ∧ c ≠ '\r') :
    Fence q Part t (openLines q t ++ u ++ [q, q, q]) := by
  by_cases hbreak : '\n' ∈ t
  · simpa [openLines, hbreak] using Fence.break Break.lineFeed h
  · simpa [openLines, hbreak] using Fence.open (hhead hbreak) h

theorem head_escapeLines (h : '\n' ∉ t) : ∀ d ∈ (escapeLines 0 t).head?, d ≠ '\n' ∧ d ≠ '\r' := by
  cases t with
  | nil => simp [escapeLines]
  | cons c t =>
    by_cases hquote : c = '"'
    · simp [hquote, escapeLines]
    · obtain ⟨d, v, hv, -, hd⟩ := (letter_escape hquote).head
      have hbreak : c ≠ '\n' := fun hc => h (by simp [hc])
      rw [escapeLines, hv] <;> first | assumption | simpa using hd

theorem head_multiLiteral (hplain : ∀ c ∈ t, isPlain c ∨ c = '\n') (h : '\n' ∉ t) :
    ∀ d ∈ t.head?, d ≠ '\n' ∧ d ≠ '\r' := by
  intro d hd
  have hmem := List.mem_of_mem_head? hd
  have hd := (hplain d hmem).resolve_right fun heq => h (heq ▸ hmem)
  exact ne_newline_of_isPlain hd

theorem styleOf_eq_literal (h : styleOf t = .literal) : (∀ c ∈ t, isPlain c) ∧ '\'' ∉ t := by
  simp only [styleOf] at h
  split_ifs at h with hescape hbasic hliteral
  simp_all [needsEscape]
  grind

theorem styleOf_eq_multiLiteral (h : styleOf t = .multiLiteral) :
    (∀ c ∈ t, isPlain c ∨ c = '\n') ∧ longestRun '\'' t ≤ 2 := by
  simp only [styleOf] at h
  split_ifs at h with hescape hbasic hliteral hmultiBasic hmultiLiteral
  simp_all [needsEscape]
  grind

theorem quoted_quote (t : Text) : Quoted t (quote t) := by
  unfold quote
  cases hstyle : styleOf t with
  | basic => exact .basic (letters_escapeInLine t)
  | literal =>
    obtain ⟨hplain, hquote⟩ := styleOf_eq_literal hstyle
    refine .literal fun c hc => ⟨hplain c hc, ?_⟩
    rintro rfl
    exact hquote hc
  | multiBasic =>
    exact .basicLines (fence_openLines (parts_escapeLines t (Nat.zero_le 2)) head_escapeLines)
  | multiLiteral =>
    obtain ⟨hplain, hrun⟩ := styleOf_eq_multiLiteral hstyle
    exact .literalLines (fence_openLines (parts_literal hrun hplain) (head_multiLiteral hplain))

end KeypadCalculator.Toml
