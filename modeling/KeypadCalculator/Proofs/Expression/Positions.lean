import KeypadCalculator.Proofs.Expression.Alphabet
import KeypadCalculator.Proofs.Expression.Lexemes
import KeypadCalculator.Proofs.Expression.Place

/-! What passes the screen can be scanned character by character, and an unexpected token is found
in the text as it was typed, at the place that the error names. -/

namespace KeypadCalculator

open Binary64 Token

/-- A text starts with the character of an operator or parenthesis, or a glyph for it, or with the
longest literal of a number. -/
inductive Symbol.Starts : Symbol → Text → Prop
  | mark {s c t} : symbolOf? (plainChar c) = some s → s.text = [plainChar c] → Starts s (c :: t)
  | number {l t x} : LongestRun l t → LiteralFor l x →
      Starts (.number (.ofRank false (rankOf x))) (l ++ t)

variable {c : Char} {l t u : Text} {p : ℕ} {s : Symbol} {lexeme : Lexeme} {ls : List Lexeme}
  {token : Token} {tokens : List Token} {why : SyntaxError}

/-- Only a lone point stops the scanner in an arithmetic text. -/
theorem scan_error_of_arithmetic (ht : ∀ c ∈ t, isArithmetic c = true)
    (h : scan t = .error why) : why = .invalidNumber ['.'] := by
  obtain ⟨ls, hcut⟩ := exists_cut 0 t
  have hreading := hcut.reading []
  rw [← scan, h] at hreading
  obtain ⟨before, l, after, rfl, -, hl⟩ := hreading.first_failure
  cases hl with
  | point => rfl
  | @foreign c p hc =>
    obtain ⟨hmem, -⟩ := hcut.mem_lexeme_iff.mp ⟨⟨[c], p⟩, by simp, List.mem_singleton_self c⟩
    rw [ht c hmem] at hc
    cases hc

theorem scan_error_of_screen (hscreen : screen t = .ok u) (h : scan u = .error why) :
    why = .invalidNumber ['.'] := by
  obtain ⟨hforeign, -, rfl⟩ := screen_ok_iff.mp hscreen
  apply scan_error_of_arithmetic _ h
  rw [← withPlainOperators_eq_map]
  exact isArithmetic_of_mem_plain hforeign

theorem scan_singleton_of_not_isArithmetic (h : isArithmetic c = false) :
    scan [c] = .error (.unknownChar c) := by
  have hblank : isBlank c = false := by
    rw [isArithmetic, Bool.or_eq_false_iff] at h
    exact h.2
  have hstart : startsNumber c = false := by
    rw [← Bool.not_eq_true]
    intro hstart
    rw [isArithmetic_of_startsNumber hstart] at h
    cases h
  have hsymbol : symbolOf? c = none := by
    rw [Option.eq_none_iff_forall_not_mem]
    intro s hs
    rw [isArithmetic_of_symbolOf? hs] at h
    cases h
  rw [scan, scanFrom]
  simp [hblank, hstart, hsymbol]

/-- The screen and the scanner know the same characters. -/
theorem isArithmetic_iff_scan : isArithmetic c = true ↔ scan [c] ≠ .error (.unknownChar c) := by
  constructor
  · intro hc h
    have hpoint := scan_error_of_arithmetic (by simpa using hc) h
    cases hpoint
  · intro h
    by_contra hc
    exact h (scan_singleton_of_not_isArithmetic (eq_false_of_ne_true hc))

/-- A lexeme stands in the text at its position: a longest run, or a single character. -/
theorem Cut.exists_split (h : Cut p t ls) (hl : lexeme ∈ ls) : ∃ before after,
    t = before ++ (lexeme.text ++ after) ∧ p + before.length = lexeme.position ∧
      (LongestRun lexeme.text after ∨ ∃ c, lexeme.text = [c] ∧ startsNumber c = false) := by
  induction h with
  | nil => cases hl
  | @blank p c t ls _ _ ih =>
    obtain ⟨before, after, rfl, hposition, hkind⟩ := ih hl
    exact ⟨c :: before, after, rfl, by simp only [List.length_cons]; omega, hkind⟩
  | @single p c t ls _ hstart _ ih =>
    rcases List.mem_cons.mp hl with rfl | hl
    · exact ⟨[], t, rfl, rfl, Or.inr ⟨c, rfl, hstart⟩⟩
    · obtain ⟨before, after, rfl, hposition, hkind⟩ := ih hl
      exact ⟨c :: before, after, rfl, by simp only [List.length_cons]; omega, hkind⟩
  | @run p l t ls hrun _ ih =>
    rcases List.mem_cons.mp hl with rfl | hl
    · exact ⟨[], t, rfl, rfl, Or.inl hrun⟩
    · obtain ⟨before, after, rfl, hposition, hkind⟩ := ih hl
      refine ⟨l ++ before, after, by simp, ?_, hkind⟩
      rw [List.length_append]
      omega

theorem text_of_symbolOf? (h : symbolOf? c = some s) : s.text = [c] := by
  rw [symbolOf?.eq_def] at h
  split at h <;> cases h <;> rfl

theorem not_isGlyph_of_startsNumber (h : startsNumber c = true) : ¬ IsGlyph c := by
  intro hglyph
  have harith := isArithmetic_of_startsNumber h
  rw [not_isArithmetic_of_isGlyph hglyph] at harith
  cases harith

theorem not_isGlyph_of_plain (h : startsNumber (plainChar c) = true) : ¬ IsGlyph c := by
  intro hglyph
  have hmark := plainChar_glyph hglyph
  generalize plainChar c = d at h hmark
  simp only [List.mem_cons, List.not_mem_nil, or_false] at hmark
  rcases hmark with rfl | rfl | rfl <;> exact absurd h (by decide)

/-- No glyph is part of a number, so a number is where it seems to be. -/
theorem LongestRun.of_plain (h : LongestRun (u.map plainChar) (t.map plainChar)) :
    u.map plainChar = u ∧ LongestRun u t := by
  have hrun : ∀ k, IsRun k → k.map plainChar = k := fun k hk =>
    map_plainChar_of_no_glyph fun c hc => not_isGlyph_of_startsNumber (hk.1 c hc)
  have hsame : u.map plainChar = u := map_plainChar_of_no_glyph fun c hc =>
    not_isGlyph_of_plain (h.isRun.1 _ (List.mem_map_of_mem hc))
  rw [hsame] at h
  refine ⟨hsame, h.nonempty, h.isRun, ?_⟩
  intro k hk hkrun
  apply h.longest k _ hkrun
  have hplain := hk.map plainChar
  rwa [hrun k hkrun, List.map_append, hsame] at hplain

theorem exists_lexeme (h : List.Forall₂ Lexeme.Writes ls tokens) (ht : token ∈ tokens) :
    ∃ l ∈ ls, l.Writes token := by
  induction h with
  | nil => cases ht
  | @cons l head ls tokens hl _ ih =>
    rcases List.mem_cons.mp ht with rfl | ht
    · exact ⟨l, List.mem_cons_self, hl⟩
    · obtain ⟨l', hmem, hwrites⟩ := ih ht
      exact ⟨l', List.mem_cons_of_mem _ hmem, hwrites⟩

/-- What a lexeme of the plain text writes starts the text itself at its place. -/
theorem Lexeme.Writes.starts (h : lexeme.Writes token)
    (ht : t.map plainChar = lexeme.text ++ l)
    (hkind : LongestRun lexeme.text l ∨ ∃ c, lexeme.text = [c] ∧ startsNumber c = false) :
    token.symbol.Starts t := by
  obtain ⟨u, rest, rfl, hu, rfl⟩ := List.map_eq_append_iff.mp ht
  cases h with
  | @symbol c p s hs =>
    obtain ⟨d, v, rfl, rfl, hv⟩ := List.map_eq_cons_iff.mp hu
    obtain rfl := List.map_eq_nil_iff.mp hv
    exact .mark hs (text_of_symbolOf? hs)
  | @number l p x hl =>
    have hrun : LongestRun l (rest.map plainChar) := by
      refine hkind.resolve_right ?_
      rintro ⟨c, hc, hstart⟩
      obtain rfl : l = [c] := hc
      rw [hl.startsNumber c (List.mem_singleton_self c)] at hstart
      cases hstart
    obtain rfl : u.map plainChar = l := hu
    obtain ⟨hsame, hlongest⟩ := hrun.of_plain
    rw [hsame] at hl
    exact .number hlongest hl

/-- Every token of the plain text is found where it says in the text itself. -/
theorem exists_starts (hscan : scan (t.map plainChar) = .ok tokens) (ht : token ∈ tokens) :
    ∃ before rest, t = before ++ rest ∧ before.length = token.position ∧
      token.symbol.Starts rest := by
  obtain ⟨ls, hcut⟩ := exists_cut 0 (t.map plainChar)
  have hreading := hcut.reading []
  rw [← scan, hscan] at hreading
  obtain ⟨_, rfl, hls⟩ := hreading.writes
  obtain ⟨lexeme, hmem, hwrites⟩ := exists_lexeme hls (by simpa using ht)
  obtain ⟨before, after, hsplit, hposition, hkind⟩ := hcut.exists_split hmem
  obtain ⟨b, tail, rfl, rfl, htail⟩ := List.map_eq_append_iff.mp hsplit
  refine ⟨b, tail, rfl, ?_, hwrites.starts htail hkind⟩
  rw [hwrites.position_eq, ← hposition, List.length_map, Nat.zero_add]

theorem valueOfText_error_cases (h : Parser.valueOfText t = .error why) :
    scan t = .error why ∨ why = .unexpectedEnd ∨ why = .tooDeep Parser.maxDepth ∨
      ∃ tokens, scan t = .ok tokens ∧ ∃ token ∈ tokens, why = .unexpected token := by
  rcases valueOfText_eq_error_iff.mp h with hscan | ⟨tokens, hscan, hvalue⟩
  · exact Or.inl hscan
  · rcases (Parser.strays_of_value hvalue).error_cases with he | he | hfound
    · exact Or.inr (Or.inl he)
    · exact Or.inr (Or.inr (Or.inl he))
    · exact Or.inr (Or.inr (Or.inr ⟨tokens, hscan, hfound⟩))

/-- What can be wrong with a text that has passed the screen. -/
theorem malformed_cases (h : evaluate t p = .error (.malformed why)) :
    why = .invalidNumber ['.'] ∨ why = .unexpectedEnd ∨ why = .tooDeep Parser.maxDepth ∨
      ∃ found, why = .unexpected found ∧ ∃ before rest, t = before ++ rest ∧
        before.length = found.position ∧ found.symbol.Starts rest := by
  obtain ⟨plain, hscreen, hvalue⟩ := evaluate_eq_malformed_iff.mp h
  rcases valueOfText_error_cases hvalue with hscan | he | he | ⟨tokens, hscan, found, hmem, he⟩
  · exact Or.inl (scan_error_of_screen hscreen hscan)
  · exact Or.inr (Or.inl he)
  · exact Or.inr (Or.inr (Or.inl he))
  · obtain ⟨-, -, rfl⟩ := screen_ok_iff.mp hscreen
    exact Or.inr (Or.inr (Or.inr ⟨found, he, exists_starts hscan hmem⟩))

/-- The screen and the scanner have the same alphabet, so that no character of an evaluated text is
unknown, and no literal is invalid but a lone point. An unexpected token is found in the text as it
was typed, glyphs and all, at the position that the error names, and is printed as what starts
there. -/
theorem evaluate_error_located (t : Text) (p : ℕ) :
    (∀ c, isArithmetic c = true ↔ scan [c] ≠ .error (.unknownChar c)) ∧
      (∀ c, evaluate t p ≠ .error (.malformed (.unknownChar c))) ∧
      (∀ literal, evaluate t p = .error (.malformed (.invalidNumber literal)) → literal = ['.']) ∧
      ∀ found, evaluate t p = .error (.malformed (.unexpected found)) →
        ∃ before rest, t = before ++ rest ∧ before.length = found.position ∧
          found.symbol.Starts rest := by
  refine ⟨fun _ => isArithmetic_iff_scan, ?_, ?_, ?_⟩
  · intro c h
    rcases malformed_cases h with he | he | he | ⟨found, he, -⟩ <;> cases he
  · intro literal h
    rcases malformed_cases h with he | he | he | ⟨found, he, -⟩ <;> cases he
    rfl
  · intro found h
    rcases malformed_cases h with he | he | he | ⟨other, he, hplace⟩ <;> cases he
    exact hplace

/-- A division sign is reported as the slash that it stands for, a number by its value. -/
theorem evaluate_error_located_glyphs :
    let sign : Token := ⟨.divide, 4⟩
    let number : Token := ⟨.number (.ofDecimal 25 2), 9⟩
    evaluate "2 × ÷ 3".toList 12 = .error (.malformed (.unexpected sign)) ∧
      sign.symbol.text = ['/'] ∧
      (∃ before rest, "2 × ÷ 3".toList = before ++ rest ∧ before.length = 4 ∧
        sign.symbol.Starts rest) ∧
      evaluate "2× 07.50 .25".toList 12 = .error (.malformed (.unexpected number)) ∧
      number.symbol.text = "0.25".toList ∧
      ∃ before rest, "2× 07.50 .25".toList = before ++ rest ∧ before.length = 9 ∧
        number.symbol.Starts rest := by
  intro sign number
  have hsign : evaluate "2 × ÷ 3".toList 12 = .error (.malformed (.unexpected sign)) := by
    decide +kernel
  have hnumber : evaluate "2× 07.50 .25".toList 12 = .error (.malformed (.unexpected number)) := by
    decide +kernel
  obtain ⟨-, -, -, hsignplace⟩ := evaluate_error_located "2 × ÷ 3".toList 12
  obtain ⟨-, -, -, hnumberplace⟩ := evaluate_error_located "2× 07.50 .25".toList 12
  exact ⟨hsign, rfl, hsignplace sign hsign, hnumber, by decide +kernel,
    hnumberplace number hnumber⟩

end KeypadCalculator
