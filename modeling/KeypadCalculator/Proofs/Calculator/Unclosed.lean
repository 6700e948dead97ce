import KeypadCalculator.Proofs.Calculator.Reachable
import KeypadCalculator.Proofs.Expression.Positions
import KeypadCalculator.Proofs.Expression.Visits

/-! A parenthesis that is not closed is for the screen to find. Behind it the parser never comes to
the end with a parenthesis open, and only an operator at the end lets a text end too early. -/

namespace KeypadCalculator

open KeypadCalculator.Parser Token

/-- But for blanks behind it the last character is an operator, or a glyph for one. -/
def EndsInOperator (t : Text) : Prop :=
  ∃ before last blanks, t = before ++ last :: blanks ∧ (∀ b ∈ blanks, isBlank b = true) ∧
    isBlank last = false ∧ plainChar last ∈ ['+', '-', '*', '/']

variable {c : Char} {t plain : Text} {s : Symbol} {ss : List Symbol} {tokens : List Token}
  {x : Stand} {k : Calculator}

theorem isBlank_of_scans_nil (h : Scans t []) : ∀ b ∈ t, isBlank b = true := by
  generalize hss : ([] : List Symbol) = ss at h
  induction h with
  | nil => simp
  | blank hc _ ih => simpa [hc] using ih hss
  | symbol => cases hss
  | number => cases hss

/-- But for blanks a text ends in its last symbol. -/
theorem Scans.exists_last (h : Scans t ss) (hs : ss.getLast? = some s) (hn : ¬ s.IsNumber) :
    ∃ before c blanks, t = before ++ c :: blanks ∧ symbolOf? c = some s ∧
      ∀ b ∈ blanks, isBlank b = true := by
  induction h with
  | nil => cases hs
  | @blank c t ss _ _ ih =>
    obtain ⟨before, d, blanks, rfl, hd⟩ := ih hs
    exact ⟨c :: before, d, blanks, rfl, hd⟩
  | @symbol c t r ss hc ht ih =>
    cases ss with
    | nil =>
      cases hs
      exact ⟨[], c, t, rfl, hc, isBlank_of_scans_nil ht⟩
    | cons q ss =>
      obtain ⟨before, d, blanks, rfl, hd⟩ := ih (by simpa using hs)
      exact ⟨c :: before, d, blanks, rfl, hd⟩
  | @number l t v ss _ _ _ ih =>
    cases ss with
    | nil =>
      cases hs
      exact absurd ⟨v, rfl⟩ hn
    | cons q ss =>
      obtain ⟨before, d, blanks, rfl, hd⟩ := ih (by simpa using hs)
      exact ⟨l ++ before, d, blanks, by simp, hd⟩

def Symbol.IsOperator (s : Symbol) : Prop := s = .plus ∨ s = .minus ∨ s = .times ∨ s = .divide

theorem Symbol.IsOperator.not_isNumber (h : s.IsOperator) : ¬ s.IsNumber := by
  rintro ⟨v, rfl⟩
  simp [Symbol.IsOperator] at h

/-- An operand is wanting outside of all parentheses at the start and behind an operator. -/
theorem getLast?_operator (h : (Place.operand 0).after? ss = some (.operand 0)) (hne : ss ≠ []) :
    ∃ s, ss.getLast? = some s ∧ s.IsOperator := by
  obtain ⟨init, s, rfl⟩ := List.eq_nil_or_concat ss |>.resolve_left hne
  rw [List.concat_eq_append, Place.after?_append] at h
  obtain ⟨q, -, hq⟩ := Option.bind_eq_some_iff.mp h
  obtain ⟨r, hr, hlast⟩ := Option.bind_eq_some_iff.mp hq
  cases hlast
  refine ⟨s, by simp, ?_⟩
  rw [Symbol.IsOperator]
  revert hr
  fun_cases Place.next? q s <;> simp

theorem mem_operators_of_symbolOf? (h : symbolOf? c = some s) (hs : s.IsOperator) :
    c ∈ ['+', '-', '*', '/'] := by
  rw [symbolOf?.eq_def] at h
  split at h <;> cases h <;> simp_all [Symbol.IsOperator]

/-- What has passed the screen closes as many parentheses as it opens. -/
theorem count_eq_of_screen (hscreen : screen t = .ok plain) (hscan : scan plain = .ok tokens) :
    (tokens.map Token.symbol).count .opening = (tokens.map Token.symbol).count .closing := by
  have hscans := scan_eq_ok_iff.mp ⟨tokens, hscan, rfl⟩
  have hagain := screen_idem hscreen
  rw [screen_of_scans hscans] at hagain
  split at hagain
  · assumption
  · cases hagain

theorem depth_eq_zero_of_screen (hscreen : screen t = .ok plain) (hscan : scan plain = .ok tokens)
    (h : Visits tokens x) (hx : x.cursor.rest = []) : x.cursor.depth = 0 := by
  have hcount := count_eq_of_screen hscreen hscan
  have hdepth := h.depth_add hx
  omega

/-- Behind the screen a text ends too early only where the parser wants an operand, outside of all
parentheses. -/
theorem after?_of_unexpectedEnd (hscreen : screen t = .ok plain) (hscan : scan plain = .ok tokens)
    (h : value tokens = .error .unexpectedEnd) :
    (Place.operand 0).after? (tokens.map Token.symbol) = some (.operand 0) := by
  obtain ⟨x, hvisits, hx, hpoint⟩ := endsEarly_of_value h
  have hdepth := depth_eq_zero_of_screen hscreen hscan hvisits hx
  obtain ⟨-, us, hts, hplace⟩ := placed_of_visits hvisits
  rw [hx, List.append_nil] at hts
  obtain rfl := hts
  rcases hpoint with hpoint | ⟨-, hopen⟩
  · rwa [hpoint, Point.place_before, hdepth] at hplace
  · exact absurd hdepth hopen.ne'

theorem endsInOperator_of_unexpectedEnd (hscreen : screen t = .ok plain)
    (h : valueOfText plain = .error .unexpectedEnd) (hblank : t.isBlank = false) :
    EndsInOperator t := by
  rcases valueOfText_eq_error_iff.mp h with hscan | ⟨tokens, hscan, hvalue⟩
  · cases scan_error_of_screen hscreen hscan
  · obtain ⟨-, -, rfl⟩ := screen_ok_iff.mp hscreen
    have hplace := after?_of_unexpectedEnd hscreen hscan hvalue
    have hscans := scan_eq_ok_iff.mp ⟨tokens, hscan, rfl⟩
    have hne : tokens.map Token.symbol ≠ [] := by
      intro hnil
      rw [hnil] at hscans
      have hall : t.isBlank = true := List.all_eq_true.mpr fun c hc =>
        isBlank_plainChar c ▸ isBlank_of_scans_nil hscans _ (List.mem_map_of_mem hc)
      rw [hblank] at hall
      cases hall
    obtain ⟨s, hs, hoperator⟩ := getLast?_operator hplace hne
    obtain ⟨before, c, blanks, hsplit, hc, hblanks⟩ := hscans.exists_last hs hoperator.not_isNumber
    obtain ⟨b, rest, rfl, -, hrest⟩ := List.map_eq_append_iff.mp hsplit
    obtain ⟨last, after, rfl, rfl, rfl⟩ := List.map_eq_cons_iff.mp hrest
    refine ⟨b, last, after, rfl, ?_, ?_, mem_operators_of_symbolOf? hc hoperator⟩
    · intro d hd
      rw [← isBlank_plainChar]
      exact hblanks _ (List.mem_map_of_mem hd)
    · rw [← isBlank_plainChar]
      exact not_isBlank_of_symbolOf? hc

/-- A group whose sum has been read is not at the end of the text. -/
theorem group_not_ended {i d : ℕ} {rest : List Token} {v : Binary64}
    {m : {c : Cursor // c.rest.length < rest.length}} (hscreen : screen t = .ok plain)
    (hscan : scan plain = .ok tokens)
    (h : Visits tokens ⟨.before .operand, ⟨⟨.opening, i⟩ :: rest, d⟩⟩) (hd : d < maxDepth)
    (hsum : sum ⟨rest, d + 1⟩ = .ok (v, m)) : m.1.rest ≠ [] := by
  intro hend
  have hread : readSum ⟨rest, d + 1⟩ = .ok (v, m.1) := by
    rw [readSum, hsum]
    rfl
  have hvisits : Visits tokens ⟨.behind .sum, m.1⟩ :=
    (h.tail (.group hd)).tail (.done (k := .sum) hread)
  have hclosed := depth_eq_zero_of_screen hscreen hscan hvisits hend
  have hopen := (sound_readSum _ ⟨rest, d + 1⟩ m.1 v le_rfl hd hread).depth_eq
  rw [show m.1.depth = 0 from hclosed] at hopen
  cases hopen

theorem Calculator.rejected_of_unclosed (h : k.text.count ')' < k.text.count '(') :
    (∃ why, k.evaluate.1 = .error (.rejected why)) ∧ k.evaluate.2.buffer = k.buffer := by
  have hopening : '(' ∈ k.text := List.count_pos_iff.mp (Nat.zero_lt_of_lt h)
  rcases evaluate_cases k with ⟨hblank, -⟩ | ⟨-, ⟨value, hvalue, -⟩ | ⟨why, hwhy, he⟩⟩
  · have hparen : isBlank '(' = true := List.all_eq_true.mp hblank _ hopening
    cases hparen
  · obtain ⟨plain, -, hscreen, -⟩ := evaluate_eq_ok_iff.mp hvalue
    obtain ⟨-, hcount, -⟩ := screen_ok_iff.mp hscreen
    omega
  · cases hscreen : screen k.text with
    | ok plain =>
      obtain ⟨-, hcount, -⟩ := screen_ok_iff.mp hscreen
      omega
    | error other =>
      rw [evaluate_eq_rejected_iff.mpr hscreen] at hwhy
      cases hwhy
      rw [he]
      exact ⟨⟨other, rfl⟩, rfl⟩

theorem Calculator.endsInOperator_of_evaluate
    (h : k.evaluate.1 = .error (.malformed .unexpectedEnd)) : EndsInOperator k.text := by
  rcases evaluate_cases k with ⟨-, he⟩ | ⟨hblank, ⟨value, -, he⟩ | ⟨why, hwhy, he⟩⟩ <;>
    rw [he] at h <;> cases h
  obtain ⟨plain, hscreen, hvalue⟩ := evaluate_eq_malformed_iff.mp hwhy
  exact endsInOperator_of_unexpectedEnd hscreen hvalue hblank

/-- A text that lacks a closing parenthesis is rejected and kept. One that ends too early ends in an
operator, because behind the screen the parser never is at the end with a parenthesis open, least of
all where it looks for the one that closes a group. -/
theorem Calculator.unclosed_rejected (k : Calculator) :
    (k.text.count ')' < k.text.count '(' →
      (∃ why, k.evaluate.1 = .error (.rejected why)) ∧ k.evaluate.2.buffer = k.buffer) ∧
    (k.evaluate.1 = .error (.malformed .unexpectedEnd) → EndsInOperator k.text) ∧
    ∀ t plain tokens, screen t = .ok plain → scan plain = .ok tokens →
      (∀ x, Visits tokens x → x.cursor.rest = [] → x.cursor.depth = 0) ∧
      ∀ i rest d v m, Visits tokens ⟨.before .operand, ⟨⟨.opening, i⟩ :: rest, d⟩⟩ →
        d < maxDepth → sum ⟨rest, d + 1⟩ = .ok (v, m) → m.1.rest ≠ [] := by
  refine ⟨rejected_of_unclosed, endsInOperator_of_evaluate, ?_⟩
  intro t plain tokens hscreen hscan
  constructor
  · intro x hvisits hx
    exact depth_eq_zero_of_screen hscreen hscan hvisits hx
  · intro i rest d v m hvisits hd hsum
    exact group_not_ended hscreen hscan hvisits hd hsum

/-- The parser comes to the end of the one text with no parenthesis open, and would come to the end
of the other, but for the screen, with one open. -/
theorem Calculator.unclosed_rejected_typed :
    let unclosed := (withPrecision 12).typeText "2+(3".toList
    let unfinished := (withPrecision 12).typeText "(3)÷ ".toList
    let behind : List Token := [⟨.closing, 2⟩, ⟨.divide, 3⟩]
    let inside : List Token := ⟨.number (.ofNat 3), 1⟩ :: behind
    (∃ why, unclosed.evaluate.1 = .error (.rejected why)) ∧
      unclosed.evaluate.2.buffer = unclosed.buffer ∧
      unfinished.evaluate.1 = .error (.malformed .unexpectedEnd) ∧
      EndsInOperator unfinished.text ∧
      (∃ x, Visits (⟨.opening, 0⟩ :: inside) x ∧ x.cursor.rest = [] ∧ x.cursor.depth = 0) ∧
      (∃ v m, sum ⟨inside, 1⟩ = .ok (v, m) ∧ m.1.rest ≠ []) ∧
      ∃ tokens, scan unclosed.text = .ok tokens ∧
        ∃ x, Visits tokens x ∧ x.cursor.rest = [] ∧ 0 < x.cursor.depth := by
  intro unclosed unfinished behind inside
  have hend : unfinished.evaluate.1 = .error (.malformed .unexpectedEnd) := by decide +kernel
  have hscreen : screen unfinished.text = .ok "(3)/ ".toList := by decide +kernel
  have hscan : scan "(3)/ ".toList = .ok (⟨.opening, 0⟩ :: inside) := by decide +kernel
  have hvalue : value (⟨.opening, 0⟩ :: inside) = .error .unexpectedEnd := by decide +kernel
  obtain ⟨hrejected, hkept⟩ := (unclosed_rejected unclosed).1 (by decide)
  obtain ⟨-, hlast, hparser⟩ := unclosed_rejected unfinished
  obtain ⟨hclosed, hgroup⟩ := hparser _ _ _ hscreen hscan
  refine ⟨hrejected, hkept, hend, hlast hend, ?_, ?_, ?_⟩
  · obtain ⟨x, hvisits, hx, -⟩ := endsEarly_of_value hvalue
    exact ⟨x, hvisits, hx, hclosed x hvisits hx⟩
  · have hvisits :
        Visits (⟨.opening, 0⟩ :: inside) ⟨.before .operand, ⟨⟨.opening, 0⟩ :: inside, 0⟩⟩ :=
      ((Relation.ReflTransGen.single .product).tail .signed).tail .operand
    have hsum : sum ⟨inside, 1⟩ = .ok (.ofNat 3, ⟨⟨behind, 1⟩, by decide⟩) := by decide +kernel
    exact ⟨_, _, hsum, hgroup 0 inside 0 _ _ hvisits (by decide) hsum⟩
  · have hopen : scan unclosed.text = .ok [⟨.number (.ofNat 2), 0⟩, ⟨.plus, 1⟩, ⟨.opening, 2⟩,
        ⟨.number (.ofNat 3), 3⟩] := by decide +kernel
    exact ⟨_, hopen, visits_end_open_iff.mpr ⟨viable_iff.mpr ⟨.operator 1, rfl⟩, by decide +kernel⟩⟩

end KeypadCalculator
