import KeypadCalculator.Proofs.Expression.Place

/-!
The parser on a budget. A reader of operands may only be called inside so many others, and has no
reading where its budget runs out. Only parentheses take from the budget, whatever the length of
chains and runs of signs.
-/

namespace KeypadCalculator.Parser

variable {b d n : ℕ} {i : ℕ} {c : Cursor} {v left : Binary64} {rest ts : List Token}

/-- A reader that has no reading where its budget runs out. -/
abbrev Frugal := (c : Cursor) → Option (Reading c.rest.length)

/-- What a symbol does between two products. -/
def additive? : Symbol → Option (Binary64 → Binary64 → Binary64)
  | .plus => some (· + ·)
  | .minus => some (· - ·)
  | _ => none

/-- What a symbol does between two signed operands. -/
def multiplicative? : Symbol → Option (Binary64 → Binary64 → Binary64)
  | .times => some (· * ·)
  | .divide => some (· / ·)
  | _ => none

variable {operation? : Symbol → Option (Binary64 → Binary64 → Binary64)}
  {operation : Binary64 → Binary64 → Binary64} {part : Frugal}

/-- The rest of a chain behind the value of its left part. Its parts are read one after the other,
each with the whole budget. -/
def chainRestWithin (operation? : Symbol → Option (Binary64 → Binary64 → Binary64)) (part : Frugal)
    (left : Binary64) (c : Cursor) (h : c.rest.length < n) : Option (Reading n) :=
  match _hc : c.rest with
  | [] => some (.ok (left, ⟨c, h⟩))
  | token :: rest =>
    match operation? token.symbol with
    | none => some (.ok (left, ⟨c, h⟩))
    | some operation =>
      match part ⟨rest, c.depth⟩ with
      | none => none
      | some (.error e) => some (.error e)
      | some (.ok (right, m)) =>
        chainRestWithin operation? part (operation left right) m.1 (by grind)
termination_by c.rest.length
decreasing_by
  have := m.2
  grind

def chainWithin (operation? : Symbol → Option (Binary64 → Binary64 → Binary64)) (part : Frugal) :
    Frugal := fun c =>
  match part c with
  | none => none
  | some (.error e) => some (.error e)
  | some (.ok (left, ⟨d, hd⟩)) => chainRestWithin operation? part left d hd

def signedWithin (operand : Frugal) : Frugal := fun c =>
  let signs := skipSigns false c.rest
  match operand ⟨signs.2, c.depth⟩ with
  | none => none
  | some (.error e) => some (.error e)
  | some (.ok (value, ⟨d, hd⟩)) =>
    some (.ok (if signs.1 then -value else value,
      ⟨d, Nat.lt_of_lt_of_le hd (skipSigns_length_le false c.rest)⟩))

def sumWithin (operand : Frugal) : Frugal :=
  chainWithin additive? (chainWithin multiplicative? (signedWithin operand))

theorem shorter_of_closing {after : List Token} (hd : c.rest.length < rest.length)
    (hafter : c.rest = ⟨.closing, i⟩ :: after) : after.length < rest.length + 1 := by
  rw [hafter, List.length_cons] at hd
  omega

/-- An operand. What stands in its parentheses has one less to spend. -/
def operandWithin : ℕ → Frugal
  | 0, _ => none
  | budget + 1, c =>
    match c.rest with
    | [] => some (.error .unexpectedEnd)
    | ⟨.number value, _⟩ :: rest => some (.ok (value, ⟨⟨rest, c.depth⟩, Nat.lt_succ_self _⟩))
    | ⟨.opening, _⟩ :: rest =>
      if maxDepth < c.depth + 1 then some (.error (.tooDeep maxDepth))
      else
        match sumWithin (operandWithin budget) ⟨rest, c.depth + 1⟩ with
        | none => none
        | some (.error e) => some (.error e)
        | some (.ok (value, ⟨d, hd⟩)) =>
          match hafter : d.rest with
          | [] => some (.error .unexpectedEnd)
          | ⟨.closing, _⟩ :: after =>
            some (.ok (value, ⟨⟨after, d.depth - 1⟩, shorter_of_closing hd hafter⟩))
          | token :: _ => some (.error (.unexpected token))
    | token :: _ => some (.error (.unexpected token))

/-- The value of a whole list of tokens, where at most so many operands contain one another. -/
def valueWithin (budget : ℕ) (tokens : List Token) : Option (Except SyntaxError Binary64) :=
  match sumWithin (operandWithin budget) ⟨tokens, 0⟩ with
  | none => none
  | some (.error e) => some (.error e)
  | some (.ok (value, m)) =>
    match m.1.rest with
    | [] => some (.ok value)
    | token :: _ => some (.error (.unexpected token))

/-- The loop of a chain over parts that are read by `read`. -/
structure Unrolls (operation? : Symbol → Option (Binary64 → Binary64 → Binary64))
    (read : (c : Cursor) → Reading c.rest.length)
    (loop : ∀ {n : ℕ}, Binary64 → (c : Cursor) → c.rest.length < n → Reading n) : Prop where
  stop {n : ℕ} (left : Binary64) (c : Cursor) (h : c.rest.length < n) :
    (∀ token ∈ c.rest.head?, operation? token.symbol = none) →
      loop left c h = .ok (left, ⟨c, h⟩)
  go {n : ℕ} (left : Binary64) (token : Token) (rest : List Token) (d : ℕ)
    (h : (token :: rest).length < n) {operation : Binary64 → Binary64 → Binary64} :
    operation? token.symbol = some operation →
      loop left ⟨token :: rest, d⟩ h = match read ⟨rest, d⟩ with
        | .error e => .error e
        | .ok (right, m) => loop (operation left right) m.1
          (m.2.trans (Nat.lt_of_succ_lt h))

theorem unrolls_sum : Unrolls additive? product sumRest where
  stop left c h hend := by
    obtain ⟨rest, d⟩ := c
    rw [sumRest]
    rcases rest with _ | ⟨⟨s, i⟩, rest⟩
    · rfl
    · cases s with
      | plus | minus => simp [additive?] at hend
      | number | times | divide | opening | closing => rfl
  go left token rest d h operation hgo := by
    obtain ⟨s, i⟩ := token
    rw [sumRest]
    cases s with
    | plus | minus =>
      cases hgo
      dsimp only
      cases product ⟨rest, d⟩ <;> rfl
    | number | times | divide | opening | closing => cases hgo

theorem unrolls_product : Unrolls multiplicative? signed productRest where
  stop left c h hend := by
    obtain ⟨rest, d⟩ := c
    rw [productRest]
    rcases rest with _ | ⟨⟨s, i⟩, rest⟩
    · rfl
    · cases s with
      | times | divide => simp [multiplicative?] at hend
      | number | plus | minus | opening | closing => rfl
  go left token rest d h operation hgo := by
    obtain ⟨s, i⟩ := token
    rw [productRest]
    cases s with
    | times | divide =>
      cases hgo
      dsimp only
      cases signed ⟨rest, d⟩ <;> rfl
    | number | plus | minus | opening | closing => cases hgo

/-- With so much to spend a reader does what the parser does, or it gets to an operand inside too
many others, each of which has a parenthesis of its own. -/
def Lasts (b : ℕ) (within : Frugal) (read : (c : Cursor) → Reading c.rest.length) : Prop :=
  ∀ c, c.depth ≤ maxDepth → within c = some (read c) ∨ (within c = none ∧ b + c.depth ≤ maxDepth)

/-- A reader leaves as many parentheses open as it finds. -/
def KeepsDepth (read : (c : Cursor) → Reading c.rest.length) : Prop :=
  ∀ c v m, c.depth ≤ maxDepth → read c = .ok (v, m) → m.1.depth = c.depth

section Chain

variable {read whole : (c : Cursor) → Reading c.rest.length}
  {loop : ∀ {n : ℕ}, Binary64 → (c : Cursor) → c.rest.length < n → Reading n}

theorem lasts_chainRest (hloop : Unrolls operation? read loop) (hdepth : KeepsDepth read)
    (hpart : Lasts b part read) (left : Binary64) (c : Cursor) (h : c.rest.length < n)
    (hd : c.depth ≤ maxDepth) :
    chainRestWithin operation? part left c h = some (loop left c h) ∨
      (chainRestWithin operation? part left c h = none ∧ b + c.depth ≤ maxDepth) := by
  induction hlen : c.rest.length using Nat.strongRecOn generalizing c left with
  | ind r ih =>
    obtain ⟨rest, d⟩ := c
    match rest with
    | [] =>
      left
      rw [chainRestWithin, hloop.stop left _ h (by simp)]
    | token :: rest =>
      cases hoperation : operation? token.symbol with
      | none =>
        left
        rw [hloop.stop left _ h (by simpa using hoperation), chainRestWithin]
        simp only [hoperation]
      | some operation =>
        rw [hloop.go left token rest d h hoperation, chainRestWithin]
        simp only [hoperation]
        rcases hpart ⟨rest, d⟩ hd with hread | ⟨hread, hlack⟩
        · simp only [hread]
          match hr : read ⟨rest, d⟩ with
          | .error e => exact Or.inl rfl
          | .ok (right, m) =>
            have hm : m.1.depth = d := hdepth ⟨rest, d⟩ right m hd hr
            have hlt : m.1.rest.length < r := by
              have := m.2
              simp only [List.length_cons] at hlen this
              omega
            have hstep := ih _ hlt (operation left right) m.1
              (m.2.trans (Nat.lt_of_succ_lt h)) (hm ▸ hd) rfl
            rwa [hm] at hstep
        · simp only [hread]
          exact Or.inr ⟨trivial, hlack⟩

theorem lasts_chain (hloop : Unrolls operation? read loop)
    (hwhole : ∀ c, whole c = match read c with
      | .error e => .error e
      | .ok (v, m) => loop v m.1 m.2)
    (hdepth : KeepsDepth read) (hpart : Lasts b part read) :
    Lasts b (chainWithin operation? part) whole := by
  intro c hd
  rw [hwhole, chainWithin]
  rcases hpart c hd with hread | ⟨hread, hlack⟩
  · rw [hread]
    match hr : read c with
    | .error e => exact Or.inl rfl
    | .ok (v, m) =>
      have hm : m.1.depth = c.depth := hdepth c v m hd hr
      have hrest := lasts_chainRest hloop hdepth hpart v m.1 m.2 (hm ▸ hd)
      rwa [hm] at hrest
  · rw [hread]
    exact Or.inr ⟨rfl, hlack⟩

end Chain

theorem lasts_signed (h : Lasts b part operand) : Lasts b (signedWithin part) signed := by
  intro c hd
  rw [signed, signedWithin]
  rcases h ⟨(skipSigns false c.rest).2, c.depth⟩ hd with hread | ⟨hread, hlack⟩
  · left
    simp only [hread]
    cases operand ⟨(skipSigns false c.rest).2, c.depth⟩ <;> rfl
  · right
    simp only [hread]
    exact ⟨trivial, hlack⟩

theorem keepsDepth_signed : KeepsDepth signed := by
  intro c v m hd h
  have hread : readSigned c = .ok (v, m.1) := by rw [readSigned, h]; rfl
  exact (sound_readSigned _ c m.1 v le_rfl hd hread).depth_eq

theorem keepsDepth_product : KeepsDepth product := by
  intro c v m hd h
  have hread : readProduct c = .ok (v, m.1) := by rw [readProduct, h]; rfl
  exact (sound_readProduct _ c m.1 v le_rfl hd hread).depth_eq

theorem lasts_sum (h : Lasts b part operand) : Lasts b (sumWithin part) sum := by
  have hproduct : Lasts b (chainWithin multiplicative? (signedWithin part)) product :=
    lasts_chain unrolls_product (fun c => (product.eq_def c).trans (by cases signed c <;> rfl))
      keepsDepth_signed (lasts_signed h)
  exact lasts_chain unrolls_sum (fun c => (sum.eq_def c).trans (by cases product c <;> rfl))
    keepsDepth_product hproduct

theorem lasts_operand (b : ℕ) : Lasts b (operandWithin b) operand := by
  induction b with
  | zero =>
    intro c hd
    exact Or.inr ⟨rfl, by omega⟩
  | succ b ih =>
    intro ⟨rest, d⟩ hd
    rw [operand]
    rcases rest with _ | ⟨⟨s, i⟩, rest⟩
    · exact Or.inl rfl
    cases s with
    | number | plus | minus | times | divide | closing => exact Or.inl rfl
    | opening =>
      rw [operandWithin]
      dsimp only
      split
      · exact Or.inl rfl
      · next hroom =>
        rcases lasts_sum ih ⟨rest, d + 1⟩ (Nat.not_lt.mp hroom) with hread | ⟨hread, hlack⟩
        · left
          rw [hread]
          rcases sum ⟨rest, d + 1⟩ with e | ⟨v, ⟨tail, e⟩, hm⟩
          · rfl
          · rcases tail with _ | ⟨⟨s, i⟩, tail⟩
            · rfl
            · cases s <;> rfl
        · right
          rw [hread]
          exact ⟨rfl, by dsimp only at hlack ⊢; omega⟩

/-- No budget makes a difference to the value. One that runs out is no larger than the number of
parentheses that may be open at once. -/
theorem valueWithin_cases (b : ℕ) (ts : List Token) :
    valueWithin b ts = some (value ts) ∨ (valueWithin b ts = none ∧ b ≤ maxDepth) := by
  rw [valueWithin, value]
  rcases lasts_sum (lasts_operand b) ⟨ts, 0⟩ (Nat.zero_le _) with hread | ⟨hread, hlack⟩
  · left
    rw [hread]
    rcases sum ⟨ts, 0⟩ with e | ⟨v, ⟨tail, e⟩, hm⟩
    · rfl
    · cases tail <;> rfl
  · right
    rw [hread]
    exact ⟨rfl, hlack⟩

theorem sumWithin_eq_none (h : part ⟨(skipSigns false c.rest).2, c.depth⟩ = none) :
    sumWithin part c = none := by
  simp only [sumWithin, chainWithin, signedWithin, h]

/-- Every parenthesis takes from the budget, until nothing is left for the operand inside. -/
theorem sumWithin_openings (hd : d + b ≤ maxDepth) (rest : List Token) :
    sumWithin (operandWithin b) ⟨List.replicate b ⟨.opening, 0⟩ ++ rest, d⟩ = none := by
  induction b generalizing d with
  | zero => exact sumWithin_eq_none rfl
  | succ b ih =>
    have hroom : ¬ maxDepth < d + 1 := by omega
    have hinner := ih (d := d + 1) (by omega)
    apply sumWithin_eq_none
    simp only [List.replicate_succ, List.cons_append]
    change operandWithin (b + 1) ⟨⟨.opening, 0⟩ :: _, d⟩ = none
    rw [operandWithin]
    simp only [if_neg hroom, hinner]

theorem valueWithin_openings (hb : b ≤ maxDepth) (rest : List Token) :
    valueWithin b (List.replicate b ⟨.opening, 0⟩ ++ rest) = none := by
  rw [valueWithin, sumWithin_openings (by omega)]

/-- The parser needs room for one operand in every parenthesis that may be open, and for the
innermost one, however long its text is. With less room it gives the same value or none. -/
theorem value_within_budget (b : ℕ) :
    (∀ ts, valueWithin b ts = some (value ts) ∨ valueWithin b ts = none) ∧
      ((∀ ts, valueWithin b ts = some (value ts)) ↔ 257 ≤ b) := by
  refine ⟨fun ts => (valueWithin_cases b ts).imp_right And.left, ?_, ?_⟩
  · intro hlasts
    by_contra hfew
    have hb : b ≤ maxDepth := Nat.lt_succ_iff.mp (Nat.lt_of_not_le hfew)
    have hnone := valueWithin_openings hb []
    rw [hlasts] at hnone
    cases hnone
  · intro hb ts
    rcases valueWithin_cases b ts with h | ⟨-, hlack⟩
    · exact h
    · exact absurd (hb.trans hlack) (by decide)

end KeypadCalculator.Parser
