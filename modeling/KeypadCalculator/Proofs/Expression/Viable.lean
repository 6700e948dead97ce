import KeypadCalculator.Proofs.Expression.Place

/-! Errors of the parser on the grammar: which beginnings of sentences they are about. -/

namespace KeypadCalculator

open KeypadCalculator.Parser Place

/-- What the parser reads: a sum with parentheses nested no deeper than it can. -/
def Sentence (ss : List Symbol) : Prop := ∃ t, Derives .sum ss t ∧ t.nesting ≤ maxDepth

/-- Some sentence starts like this. -/
def Viable (ss : List Symbol) : Prop := ∃ rest, Sentence (ss ++ rest)

/-- An operand comes next, for none has ended here. -/
def WantsOperand (ss : List Symbol) : Prop := ∀ s ∈ ss.getLast?, s ≠ .closing ∧ ¬ s.IsNumber

/-- So many parentheses were opened and not closed. -/
def LeavesOpen (ss : List Symbol) (n : ℕ) : Prop := ss.count .opening = ss.count .closing + n

variable {p q : Place} {s : Symbol} {ss us : List Symbol} {ts : List Token} {e : SyntaxError}
  {text : Text} {n : ℕ}

theorem Strays.after?_ne (h : Strays p ts e) :
    p.after? (ts.map Token.symbol) ≠ some (operator 0) := by
  induction h with
  | ended hp => simpa [after?] using hp
  | tooDeep => simp [after?_cons, next?]
  | unexpected hnext _ => simp [after?_cons, hnext]
  | step hnext _ ih => simpa [after?_cons, hnext] using ih

theorem sentence_iff : Sentence ss ↔ (operand 0).after? ss = some (operator 0) := by
  constructor
  · rintro ⟨t, ht, hnest⟩
    exact after?_of_derives ht (by omega)
  · intro h
    have hsymbols : (ss.map fun s => (⟨s, 0⟩ : Token)).map Token.symbol = ss := by
      rw [List.map_map]
      exact List.map_id ss
    cases hvalue : value (ss.map fun s => ⟨s, 0⟩) with
    | error e =>
      apply absurd h
      rw [← hsymbols]
      exact (strays_of_value hvalue).after?_ne
    | ok v =>
      obtain ⟨t, ht, hnest, -⟩ := value_eq_ok_iff.mp hvalue
      rw [hsymbols] at ht
      exact ⟨t, ht, hnest⟩

theorem after?_closing (n : ℕ) :
    (operator n).after? (List.replicate n .closing) = some (operator 0) := by
  induction n with
  | zero => rfl
  | succ n ih => exact ih

/-- From every place the end of a sentence can be reached. -/
theorem exists_after? (p : Place) : ∃ rest, p.after? rest = some (operator 0) := by
  cases p with
  | operand n => exact ⟨.number (.zero false) :: .replicate n .closing, after?_closing n⟩
  | operator n => exact ⟨.replicate n .closing, after?_closing n⟩

theorem viable_iff : Viable ss ↔ ∃ p, (operand 0).after? ss = some p := by
  constructor
  · rintro ⟨rest, h⟩
    rw [sentence_iff, after?_append] at h
    obtain ⟨p, hp, -⟩ := Option.bind_eq_some_iff.mp h
    exact ⟨p, hp⟩
  · rintro ⟨p, hp⟩
    obtain ⟨rest, hrest⟩ := exists_after? p
    refine ⟨rest, sentence_iff.mpr ?_⟩
    rw [after?_append, hp]
    exact hrest

theorem Viable.of_append (h : Viable (ss ++ us)) : Viable ss := by
  obtain ⟨rest, hrest⟩ := h
  exact ⟨us ++ rest, by rwa [← List.append_assoc]⟩

theorem next?_opened (h : p.next? s = some q) : q.opened + [s].count .closing =
    p.opened + [s].count .opening := by
  fun_cases next? p s <;> grind [next?, opened_operand, opened_operator]

theorem after?_opened (h : p.after? ss = some q) :
    q.opened + ss.count .closing = p.opened + ss.count .opening := by
  induction ss generalizing p with
  | nil =>
    cases h
    rfl
  | cons s ss ih =>
    obtain ⟨r, hr, hq⟩ := Option.bind_eq_some_iff.mp h
    have hstep := next?_opened hr
    have htail := ih hq
    rw [← List.singleton_append, List.count_append, List.count_append]
    omega

/-- Only behind a number or a closing parenthesis an operand has ended. -/
theorem next?_wants (h : p.next? s = some q) :
    (s ≠ .closing ∧ ¬ s.IsNumber) ↔ ∃ n, q = Place.operand n := by
  fun_cases next? p s <;> grind [next?, Symbol.IsNumber]

theorem wantsOperand_iff (h : (Place.operand 0).after? ss = some q) :
    WantsOperand ss ↔ ∃ n, q = Place.operand n := by
  induction ss using List.reverseRecOn with
  | nil =>
    cases h
    simp [WantsOperand]
  | append_singleton ss s _ =>
    rw [after?_append] at h
    obtain ⟨r, -, hr⟩ := Option.bind_eq_some_iff.mp h
    obtain ⟨t, ht, hq⟩ := Option.bind_eq_some_iff.mp hr
    cases hq
    simp [WantsOperand, ← next?_wants ht]

/-- The deepest place for an operand, in terms of the symbols before it. -/
theorem eq_operand_maxDepth_iff (h : (Place.operand 0).after? ss = some q) :
    q = .operand maxDepth ↔ WantsOperand ss ∧ LeavesOpen ss maxDepth := by
  have hopened := after?_opened h
  rw [wantsOperand_iff h, LeavesOpen]
  constructor
  · rintro rfl
    simp only [opened_operand] at hopened
    exact ⟨⟨_, rfl⟩, by omega⟩
  · rintro ⟨⟨n, rfl⟩, hopen⟩
    simp only [opened_operand] at hopened
    obtain rfl : n = maxDepth := by omega
    rfl

/-- Tokens that stray lead to their end, or to a token that has no place there. -/
theorem Strays.cases_place (h : Strays p ts e) :
    (e = .unexpectedEnd ∧ ∃ q, p.after? (ts.map Token.symbol) = some q) ∨
      ∃ k, ∃ hk : k < ts.length, ∃ q, p.after? ((ts.take k).map Token.symbol) = some q ∧
        q.next? ts[k].symbol = none ∧
        ((q = .operand maxDepth ∧ ts[k].symbol = .opening ∧ e = .tooDeep maxDepth) ∨
          ¬ (q = .operand maxDepth ∧ ts[k].symbol = .opening) ∧ e = .unexpected ts[k]) := by
  induction h with
  | @ended p _ => exact Or.inl ⟨rfl, p, rfl⟩
  | tooDeep =>
    refine Or.inr ⟨0, by simp, .operand maxDepth, rfl, ?_, Or.inl ⟨rfl, rfl, rfl⟩⟩
    simp [next?]
  | @unexpected p token rest hnext hdeep =>
    exact Or.inr ⟨0, by simp, p, rfl, hnext, Or.inr ⟨hdeep, rfl⟩⟩
  | @step p q token rest e hnext _ ih =>
    rcases ih with ⟨he, r, hr⟩ | ⟨k, hk, r, hr, hstray, herr⟩
    · refine Or.inl ⟨he, r, ?_⟩
      simpa [after?_cons, hnext] using hr
    · refine Or.inr ⟨k + 1, by simpa using hk, r, ?_, hstray, herr⟩
      simpa [after?_cons, hnext] using hr

theorem Viable.of_take {k j : ℕ} (h : Viable ((ts.take k).map Token.symbol)) (hj : j ≤ k) :
    Viable ((ts.take j).map Token.symbol) := by
  obtain ⟨us, hus⟩ := List.take_prefix_take_left (l := ts) hj
  rw [← hus, List.map_append] at h
  exact h.of_append

/-- A token without a place spoils the beginning of a sentence. -/
theorem not_viable_take_succ {k : ℕ} (hk : k < ts.length)
    (hq : (Place.operand 0).after? ((ts.take k).map Token.symbol) = some q)
    (hnext : q.next? ts[k].symbol = none) : ¬ Viable ((ts.take (k + 1)).map Token.symbol) := by
  rw [viable_iff, List.take_succ_eq_append_getElem hk, List.map_append, after?_append, hq]
  simp [after?_cons, hnext]

/-- Where a syntax error is. The text ends too early just if it is the beginning of a sentence, but
none itself. In any other text a first token `k` spoils the beginning: it is a parenthesis that
would nest an operand too deep, or it is unexpected, and the error names its text and position. -/
theorem syntaxError_located (hscan : Token.scan text = .ok ts) (h : valueOfText text = .error e) :
    (e = .unexpectedEnd ↔
      ¬ Sentence (ts.map Token.symbol) ∧ Viable (ts.map Token.symbol)) ∧
    (e ≠ .unexpectedEnd → ∃ k, ∃ hk : k < ts.length,
      (∀ j ≤ k, Viable ((ts.take j).map Token.symbol)) ∧
      ¬ Viable ((ts.take (k + 1)).map Token.symbol) ∧
      ((ts[k].symbol = .opening ∧ WantsOperand ((ts.take k).map Token.symbol) ∧
          LeavesOpen ((ts.take k).map Token.symbol) maxDepth ∧ e = .tooDeep maxDepth) ∨
        ¬ (ts[k].symbol = .opening ∧ WantsOperand ((ts.take k).map Token.symbol) ∧
          LeavesOpen ((ts.take k).map Token.symbol) maxDepth) ∧ e = .unexpected ts[k] ∧
          e.message = "Unexpected '".toList ++ ts[k].symbol.text ++ "' at position ".toList ++
            Text.numeral ts[k].position)) := by
  have hvalue : value ts = .error e := by
    simpa only [valueOfText, hscan] using h
  have hstrays := strays_of_value hvalue
  rcases hstrays.cases_place with ⟨rfl, q, hq⟩ | ⟨k, hk, q, hq, hnext, herr⟩
  · have hnot : ¬ Sentence (ts.map Token.symbol) := by
      rw [sentence_iff]
      exact hstrays.after?_ne
    exact ⟨iff_of_true rfl ⟨hnot, viable_iff.mpr ⟨q, hq⟩⟩, fun hne => absurd rfl hne⟩
  · have hspoiled := not_viable_take_succ hk hq hnext
    have hne : e ≠ .unexpectedEnd := by
      rcases herr with ⟨-, -, rfl⟩ | ⟨-, rfl⟩ <;> simp
    constructor
    · refine iff_of_false hne fun hviable => hspoiled ?_
      rw [← ts.take_length] at hviable
      exact hviable.2.of_take hk
    · intro _
      refine ⟨k, hk, fun j hj => (viable_iff.mpr ⟨q, hq⟩).of_take hj, hspoiled, ?_⟩
      rw [eq_operand_maxDepth_iff hq] at herr
      rcases herr with ⟨⟨hwants, hopen⟩, hsymbol, rfl⟩ | ⟨hnot, rfl⟩
      · exact Or.inl ⟨hsymbol, hwants, hopen, rfl⟩
      · exact Or.inr ⟨fun hdeep => hnot ⟨hdeep.2, hdeep.1⟩, rfl, rfl⟩

/-- Two numbers without an operator between them: the second one is the first stray token. -/
theorem syntaxError_located_numbers :
    let second : Token := ⟨.number (.ofNat 30), 5⟩
    let ts : List Token := [⟨.opening, 0⟩, ⟨.number (.ofNat 1), 1⟩, ⟨.plus, 2⟩,
      ⟨.number (.ofNat 2), 3⟩, second, ⟨.closing, 7⟩]
    Token.scan "(1+2 30)".toList = .ok ts ∧
      valueOfText "(1+2 30)".toList = .error (.unexpected second) ∧
      (SyntaxError.unexpected second).message = "Unexpected '30' at position 5".toList ∧
      ∃ k, ∃ hk : k < ts.length, ts[k] = second ∧ Viable ((ts.take k).map Token.symbol) ∧
        ¬ Viable ((ts.take (k + 1)).map Token.symbol) := by
  intro second ts
  have hscan : Token.scan "(1+2 30)".toList = .ok ts := by decide +kernel
  have hvalue : valueOfText "(1+2 30)".toList = .error (.unexpected second) := by decide +kernel
  refine ⟨hscan, hvalue, by decide +kernel, ?_⟩
  obtain ⟨k, hk, hbefore, hspoiled, herr⟩ := (syntaxError_located hscan hvalue).2 (by simp)
  refine ⟨k, hk, ?_, hbefore k le_rfl, hspoiled⟩
  rcases herr with ⟨-, -, -, he⟩ | ⟨-, he, -⟩
  · cases he
  · exact (SyntaxError.unexpected.inj he).symm

end KeypadCalculator
