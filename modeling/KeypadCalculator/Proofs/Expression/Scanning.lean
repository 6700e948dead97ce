import Mathlib.Data.List.TakeWhile
import KeypadCalculator.Expression.Token

/-! What a text is made of when it can be scanned: blanks, plain symbols and longest literals. -/

namespace KeypadCalculator

/-- The literal `l` is the longest one in front of `t`. -/
inductive Literal : Text → Text → Prop
  | whole {ds t : Text} (hds : ∀ c ∈ ds, c.isDigit = true) (hne : ds ≠ [])
      (ht : ∀ c ∈ t.head?, Token.startsNumber c = false) : Literal ds t
  | point {ds fs t : Text} (hds : ∀ c ∈ ds, c.isDigit = true) (hfs : ∀ c ∈ fs, c.isDigit = true)
      (ht : ∀ c ∈ t.head?, c.isDigit = false) : Literal (ds ++ '.' :: fs) t

/-- The symbols that a text is written in. -/
inductive Scans : Text → List Symbol → Prop
  | nil : Scans [] []
  | blank {c t ss} : isBlank c = true → Scans t ss → Scans (c :: t) ss
  | symbol {c t s ss} : Token.symbolOf? c = some s → Scans t ss → Scans (c :: t) (s :: ss)
  | number {l t v ss} : Literal l t → Token.literalValue? l = some v → Scans t ss →
      Scans (l ++ t) (.number v :: ss)

namespace Token

variable {c : Char} {l t ds fs : Text} {s : Symbol} {ss : List Symbol} {v : Binary64} {p : Nat}

theorem startsNumber_of_isDigit (h : c.isDigit = true) : startsNumber c = true := by
  simp [startsNumber, h]

theorem splitNumber_literal (h : Literal l t) : splitNumber (l ++ t) = (l, t) := by
  cases h with
  | whole hds hne ht =>
    have hdigit : ∀ c ∈ t.head?, c.isDigit = false := by
      intro c hc
      have hs := ht c hc
      simp only [startsNumber, Bool.or_eq_false_iff] at hs
      exact hs.1
    obtain ⟨htake, hdrop⟩ := takeWhile_dropWhile_append hds hdigit
    rw [splitNumber, htake, hdrop]
    split
    · next rest => exact absurd (ht '.' rfl) (by decide)
    · rfl
  | @point ds fs t hds hfs ht =>
    obtain ⟨htake, hdrop⟩ := takeWhile_dropWhile_append (t := '.' :: fs ++ t) hds (by simp)
    obtain ⟨htake', hdrop'⟩ := takeWhile_dropWhile_append hfs ht
    rw [splitNumber, List.append_assoc, htake, hdrop]
    simp [htake', hdrop']

theorem literal_splitNumber (h : startsNumber c = true) :
    Literal (splitNumber (c :: t)).1 (splitNumber (c :: t)).2 := by
  have hds : ∀ d ∈ (c :: t).takeWhile Char.isDigit, d.isDigit = true := fun d hd =>
    List.mem_takeWhile_imp hd
  rw [splitNumber]
  split
  · next rest hrest =>
    exact .point hds (fun d hd => List.mem_takeWhile_imp hd) (head?_dropWhile _ rest)
  · next rest hpoint =>
    have hdigit := head?_dropWhile Char.isDigit (c :: t)
    apply Literal.whole hds
    · intro hnil
      have hc : c.isDigit = false := by
        rw [← Bool.not_eq_true]
        intro hc
        simp [hc] at hnil
      obtain rfl : c = '.' := by simpa [startsNumber, hc] using h
      exact hpoint t rfl
    · intro d hd
      rw [startsNumber, hdigit d hd, Bool.false_or, beq_eq_false_iff_ne]
      rintro rfl
      obtain ⟨rest, hrest⟩ := List.head?_eq_some_iff.mp hd
      exact hpoint rest hrest

theorem symbolOf?_of_startsNumber (h : startsNumber c = true) : symbolOf? c = none := by
  rw [symbolOf?.eq_def]
  split <;> first | rfl | exact absurd h (by decide)

theorem isDigit_iff : c.isDigit = true ↔ 48 ≤ c.toNat ∧ c.toNat ≤ 57 := by
  simp only [Char.isDigit, Bool.and_eq_true, decide_eq_true_eq, ge_iff_le, UInt32.le_iff_toNat_le]
  rfl

theorem not_isBlank_of_startsNumber (h : startsNumber c = true) : isBlank c = false := by
  rw [startsNumber, Bool.or_eq_true, beq_iff_eq, isDigit_iff] at h
  rcases h with h | rfl
  · simp only [isBlank, Bool.or_eq_false_iff, Bool.and_eq_false_iff, decide_eq_false_iff_not,
      beq_eq_false_iff_ne]
    omega
  · decide

theorem not_startsNumber_of_isBlank (h : isBlank c = true) : startsNumber c = false := by
  rw [← Bool.not_eq_true]
  intro hstart
  rw [not_isBlank_of_startsNumber hstart] at h
  cases h

theorem startsNumber_of_symbolOf? (h : symbolOf? c = some s) : startsNumber c = false := by
  rw [← Bool.not_eq_true]
  intro hstart
  rw [symbolOf?_of_startsNumber hstart] at h
  cases h

theorem not_isBlank_of_symbolOf? (h : symbolOf? c = some s) : isBlank c = false := by
  rw [symbolOf?.eq_def] at h
  split at h <;> first | decide | cases h

theorem literal_cons (h : Literal l t) : ∃ c l', l = c :: l' ∧ startsNumber c = true := by
  cases h with
  | whole hds hne ht =>
    obtain ⟨c, l', rfl⟩ := List.exists_cons_of_ne_nil hne
    exact ⟨c, l', rfl, startsNumber_of_isDigit (hds c (by simp))⟩
  | @point ds fs t hds hfs ht =>
    cases ds with
    | nil => exact ⟨'.', fs, rfl, by decide⟩
    | cons c ds => exact ⟨c, _, rfl, startsNumber_of_isDigit (hds c (by simp))⟩

theorem scanFrom_literal (hl : Literal l t) (hv : literalValue? l = some v) (p : Nat)
    (found : List Token) : scanFrom p found (l ++ t) =
      scanFrom (p + l.length) (⟨.number v, p⟩ :: found) t := by
  obtain ⟨c, l', rfl, hc⟩ := literal_cons hl
  have hsplit : splitNumber (c :: (l' ++ t)) = (c :: l', t) := splitNumber_literal hl
  rw [List.cons_append, scanFrom, if_neg (by simp [not_isBlank_of_startsNumber hc]),
    symbolOf?_of_startsNumber hc]
  simp only [hc, dif_pos, hsplit, hv]

theorem scanFrom_of_scans (h : Scans t ss) (p : Nat) (found : List Token) :
    ∃ tokens, scanFrom p found t = .ok (found.reverse ++ tokens) ∧ tokens.map symbol = ss := by
  induction h generalizing p found with
  | nil => exact ⟨[], by simp [scanFrom], rfl⟩
  | blank hc ht ih =>
    obtain ⟨tokens, heq, hss⟩ := ih (p + 1) found
    exact ⟨tokens, by rw [scanFrom, if_pos hc, heq], hss⟩
  | @symbol c t s ss hc ht ih =>
    obtain ⟨tokens, heq, hss⟩ := ih (p + 1) (⟨s, p⟩ :: found)
    refine ⟨⟨s, p⟩ :: tokens, ?_, by simp [hss]⟩
    rw [scanFrom, if_neg (by simp [not_isBlank_of_symbolOf? hc]), hc]
    simp [heq]
  | @number l t v ss hl hv ht ih =>
    obtain ⟨tokens, heq, hss⟩ := ih (p + l.length) (⟨.number v, p⟩ :: found)
    exact ⟨⟨.number v, p⟩ :: tokens, by rw [scanFrom_literal hl hv, heq]; simp, by simp [hss]⟩

theorem scans_of_scanFrom {found tokens : List Token} (h : scanFrom p found t = .ok tokens) :
    ∃ ss, Scans t ss ∧ tokens.map symbol = found.reverse.map symbol ++ ss := by
  fun_induction scanFrom p found t with
  | case1 p found =>
    cases h
    exact ⟨[], .nil, by simp⟩
  | case2 p found c t hc ih =>
    obtain ⟨ss, hss, heq⟩ := ih h
    exact ⟨ss, .blank hc hss, heq⟩
  | case3 p found c t hc s hs ih =>
    obtain ⟨ss, hss, heq⟩ := ih h
    exact ⟨s :: ss, .symbol hs hss, by simpa using heq⟩
  | case4 p found c t hc hs hn l v hv ih =>
    obtain ⟨ss, hss, heq⟩ := ih h
    refine ⟨.number v :: ss, ?_, by simpa using heq⟩
    rw [← splitNumber_append (c :: t)]
    exact .number (literal_splitNumber hn) hv hss
  | case5 => cases h
  | case6 => cases h

theorem literalValue?_whole (hds : ∀ c ∈ ds, c.isDigit = true) : literalValue? ds =
    if ds = [] then none else some (Binary64.ofDecimal (Text.digitsValue ds) 0) := by
  obtain ⟨htake, hdrop⟩ := takeWhile_dropWhile_append (t := []) hds (by simp)
  rw [List.append_nil] at htake hdrop
  cases ds <;> simp [literalValue?, htake, hdrop]

theorem literalValue?_point (hds : ∀ c ∈ ds, c.isDigit = true) : literalValue? (ds ++ '.' :: fs) =
    if ds ++ fs = [] then none
    else some (Binary64.ofDecimal (Text.digitsValue (ds ++ fs)) fs.length) := by
  obtain ⟨htake, hdrop⟩ := takeWhile_dropWhile_append (t := '.' :: fs) hds (by simp)
  simp [literalValue?, htake, hdrop, List.isEmpty_iff]

theorem startsNumber_of_mem_literal (h : Literal l t) : ∀ c ∈ l, startsNumber c = true := by
  cases h with
  | whole hds _ _ => exact fun c hc => startsNumber_of_isDigit (hds c hc)
  | point hds hfs _ =>
    intro c hc
    rw [List.mem_append, List.mem_cons] at hc
    rcases hc with hc | rfl | hc
    · exact startsNumber_of_isDigit (hds c hc)
    · decide
    · exact startsNumber_of_isDigit (hfs c hc)

/-- Scanning succeeds exactly on what is written in symbols, and finds these symbols. -/
theorem scan_eq_ok_iff : (∃ tokens, scan t = .ok tokens ∧ tokens.map symbol = ss) ↔ Scans t ss := by
  constructor
  · rintro ⟨tokens, hscan, rfl⟩
    obtain ⟨ss, hss, heq⟩ := scans_of_scanFrom hscan
    rw [heq]
    simpa using hss
  · intro h
    simpa [scan] using scanFrom_of_scans h 0 []

end Token

end KeypadCalculator
