import KeypadCalculator.Expression.Parser

/-! The readers of the parser without the bounds they carry, one equation for each way on. -/

namespace KeypadCalculator.Parser

variable {n m : Nat} {v : Binary64} {c : Cursor} {i d : Nat} {rest : List Token}

/-- A reading without the bound on its cursor. -/
def Reading.plain : Reading n → Except SyntaxError (Binary64 × Cursor)
  | .error e => .error e
  | .ok (v, d) => .ok (v, d.1)

def readSum (c : Cursor) : Except SyntaxError (Binary64 × Cursor) := (sum c).plain

def readProduct (c : Cursor) : Except SyntaxError (Binary64 × Cursor) := (product c).plain

def readSigned (c : Cursor) : Except SyntaxError (Binary64 × Cursor) := (signed c).plain

def readOperand (c : Cursor) : Except SyntaxError (Binary64 × Cursor) := (operand c).plain

/-- The rest of a sum behind the value `v`. -/
def readTerms (v : Binary64) (c : Cursor) : Except SyntaxError (Binary64 × Cursor) :=
  (sumRest v c (Nat.lt_succ_self _)).plain

/-- The rest of a product behind the value `v`. -/
def readFactors (v : Binary64) (c : Cursor) : Except SyntaxError (Binary64 × Cursor) :=
  (productRest v c (Nat.lt_succ_self _)).plain

/-- Nothing here goes on with a sum. -/
def EndsSum (ts : List Token) : Prop :=
  ∀ token ∈ ts.head?, token.symbol ≠ .plus ∧ token.symbol ≠ .minus

/-- Nothing here goes on with a product. -/
def EndsProduct (ts : List Token) : Prop :=
  ∀ token ∈ ts.head?, token.symbol ≠ .times ∧ token.symbol ≠ .divide

theorem bind_eq_ok {α β : Type} {x : Except SyntaxError α} {f : α → Except SyntaxError β} {b : β}
    (h : x >>= f = .ok b) : ∃ a, x = .ok a ∧ f a = .ok b := by
  cases x with
  | error e => cases h
  | ok a => exact ⟨a, rfl, h⟩

/-- The bound that the loop of a sum carries does not show in its result. -/
theorem sumRest_plain (k : Nat) (hk : c.rest.length ≤ k) (h : c.rest.length < n)
    (h' : c.rest.length < m) : (sumRest v c h).plain = (sumRest v c h').plain := by
  induction k generalizing c v with
  | zero =>
    obtain ⟨rest, d⟩ := c
    obtain rfl : rest = [] := List.length_eq_zero_iff.mp (Nat.le_zero.mp hk)
    rw [sumRest, sumRest]
    rfl
  | succ k ih =>
    obtain ⟨rest, d⟩ := c
    rw [sumRest, sumRest]
    match rest with
    | ⟨.plus, i⟩ :: rest | ⟨.minus, i⟩ :: rest =>
      dsimp only
      cases product ⟨rest, d⟩ with
      | error e => rfl
      | ok p =>
        have := p.2.2
        exact ih (by simp at hk this; omega) _ _
    | [] | ⟨.number _, _⟩ :: _ | ⟨.times, _⟩ :: _ | ⟨.divide, _⟩ :: _ | ⟨.opening, _⟩ :: _
    | ⟨.closing, _⟩ :: _ => rfl

/-- The bound that the loop of a product carries does not show in its result. -/
theorem productRest_plain (k : Nat) (hk : c.rest.length ≤ k) (h : c.rest.length < n)
    (h' : c.rest.length < m) : (productRest v c h).plain = (productRest v c h').plain := by
  induction k generalizing c v with
  | zero =>
    obtain ⟨rest, d⟩ := c
    obtain rfl : rest = [] := List.length_eq_zero_iff.mp (Nat.le_zero.mp hk)
    rw [productRest, productRest]
    rfl
  | succ k ih =>
    obtain ⟨rest, d⟩ := c
    rw [productRest, productRest]
    match rest with
    | ⟨.times, i⟩ :: rest | ⟨.divide, i⟩ :: rest =>
      dsimp only
      cases signed ⟨rest, d⟩ with
      | error e => rfl
      | ok p =>
        have := p.2.2
        exact ih (by simp at hk this; omega) _ _
    | [] | ⟨.number _, _⟩ :: _ | ⟨.plus, _⟩ :: _ | ⟨.minus, _⟩ :: _ | ⟨.opening, _⟩ :: _
    | ⟨.closing, _⟩ :: _ => rfl

theorem readSum_eq (c : Cursor) : readSum c = readProduct c >>= fun p => readTerms p.1 p.2 := by
  rw [readSum, readProduct, sum]
  cases product c with
  | error e => rfl
  | ok p => exact sumRest_plain _ (Nat.le_refl _) _ _

theorem readTerms_plus : readTerms v ⟨⟨.plus, i⟩ :: rest, d⟩ =
    readProduct ⟨rest, d⟩ >>= fun p => readTerms (v + p.1) p.2 := by
  rw [readTerms, readProduct, sumRest]
  dsimp only
  cases product ⟨rest, d⟩ with
  | error e => rfl
  | ok p => exact sumRest_plain _ (Nat.le_refl _) _ _

theorem readTerms_minus : readTerms v ⟨⟨.minus, i⟩ :: rest, d⟩ =
    readProduct ⟨rest, d⟩ >>= fun p => readTerms (v - p.1) p.2 := by
  rw [readTerms, readProduct, sumRest]
  dsimp only
  cases product ⟨rest, d⟩ with
  | error e => rfl
  | ok p => exact sumRest_plain _ (Nat.le_refl _) _ _

theorem readTerms_end (h : EndsSum rest) : readTerms v ⟨rest, d⟩ = .ok (v, ⟨rest, d⟩) := by
  rw [readTerms, sumRest]
  match rest with
  | ⟨.plus, i⟩ :: rest | ⟨.minus, i⟩ :: rest => simp [EndsSum] at h
  | [] | ⟨.number _, _⟩ :: _ | ⟨.times, _⟩ :: _ | ⟨.divide, _⟩ :: _ | ⟨.opening, _⟩ :: _
  | ⟨.closing, _⟩ :: _ => rfl

theorem readProduct_eq (c : Cursor) :
    readProduct c = readSigned c >>= fun p => readFactors p.1 p.2 := by
  rw [readProduct, readSigned, product]
  cases signed c with
  | error e => rfl
  | ok p => exact productRest_plain _ (Nat.le_refl _) _ _

theorem readFactors_times : readFactors v ⟨⟨.times, i⟩ :: rest, d⟩ =
    readSigned ⟨rest, d⟩ >>= fun p => readFactors (v * p.1) p.2 := by
  rw [readFactors, readSigned, productRest]
  dsimp only
  cases signed ⟨rest, d⟩ with
  | error e => rfl
  | ok p => exact productRest_plain _ (Nat.le_refl _) _ _

theorem readFactors_divide : readFactors v ⟨⟨.divide, i⟩ :: rest, d⟩ =
    readSigned ⟨rest, d⟩ >>= fun p => readFactors (v / p.1) p.2 := by
  rw [readFactors, readSigned, productRest]
  dsimp only
  cases signed ⟨rest, d⟩ with
  | error e => rfl
  | ok p => exact productRest_plain _ (Nat.le_refl _) _ _

theorem readFactors_end (h : EndsProduct rest) :
    readFactors v ⟨rest, d⟩ = .ok (v, ⟨rest, d⟩) := by
  rw [readFactors, productRest]
  match rest with
  | ⟨.times, i⟩ :: rest | ⟨.divide, i⟩ :: rest => simp [EndsProduct] at h
  | [] | ⟨.number _, _⟩ :: _ | ⟨.plus, _⟩ :: _ | ⟨.minus, _⟩ :: _ | ⟨.opening, _⟩ :: _
  | ⟨.closing, _⟩ :: _ => rfl

/-- A minus sign in front of a run turns the result of the run over. -/
theorem skipSigns_not (b : Bool) (ts : List Token) :
    skipSigns (!b) ts = (!(skipSigns b ts).1, (skipSigns b ts).2) := by
  fun_induction skipSigns b ts with
  | case1 b i rest ih => rw [skipSigns, ih]
  | case2 b i rest ih => rw [skipSigns, ih]
  | case3 b rest h₁ h₂ => rw [skipSigns] <;> assumption

theorem readSigned_eq (c : Cursor) : readSigned c =
    readOperand ⟨(skipSigns false c.rest).2, c.depth⟩ >>= fun p =>
      .ok (if (skipSigns false c.rest).1 then -p.1 else p.1, p.2) := by
  rw [readSigned, readOperand, signed]
  cases operand ⟨(skipSigns false c.rest).2, c.depth⟩ with
  | error e => rfl
  | ok p => rfl

theorem readSigned_plus : readSigned ⟨⟨.plus, i⟩ :: rest, d⟩ = readSigned ⟨rest, d⟩ := by
  rw [readSigned_eq, readSigned_eq]
  rfl

theorem readSigned_minus : readSigned ⟨⟨.minus, i⟩ :: rest, d⟩ =
    readSigned ⟨rest, d⟩ >>= fun p => .ok (-p.1, p.2) := by
  have hs : skipSigns false (⟨.minus, i⟩ :: rest) =
      (!(skipSigns false rest).1, (skipSigns false rest).2) := by
    rw [skipSigns, ← skipSigns_not]
  rw [readSigned_eq, readSigned_eq, hs]
  cases readOperand ⟨(skipSigns false rest).2, d⟩ with
  | error e => rfl
  | ok p => cases (skipSigns false rest).1 <;> simp [bind, Except.bind, Binary64.neg_neg]

theorem readSigned_operand (h : EndsSum rest) :
    readSigned ⟨rest, d⟩ = readOperand ⟨rest, d⟩ := by
  have hs : skipSigns false rest = (false, rest) := by
    match rest with
    | ⟨.plus, i⟩ :: rest | ⟨.minus, i⟩ :: rest => simp [EndsSum] at h
    | [] | ⟨.number _, _⟩ :: _ | ⟨.times, _⟩ :: _ | ⟨.divide, _⟩ :: _ | ⟨.opening, _⟩ :: _
    | ⟨.closing, _⟩ :: _ => rfl
  rw [readSigned_eq, hs]
  cases readOperand ⟨rest, d⟩ with
  | error e => rfl
  | ok p => rfl

theorem readOperand_nil : readOperand ⟨[], d⟩ = .error .unexpectedEnd := by
  rw [readOperand, operand]
  rfl

theorem readOperand_number : readOperand ⟨⟨.number v, i⟩ :: rest, d⟩ = .ok (v, ⟨rest, d⟩) := by
  rw [readOperand, operand]
  rfl

/-- The closing parenthesis behind the value of a group. -/
def readClosing (p : Binary64 × Cursor) : Except SyntaxError (Binary64 × Cursor) :=
  match p.2.rest with
  | [] => .error .unexpectedEnd
  | ⟨.closing, _⟩ :: after => .ok (p.1, ⟨after, p.2.depth - 1⟩)
  | token :: _ => .error (.unexpected token)

theorem readOperand_opening : readOperand ⟨⟨.opening, i⟩ :: rest, d⟩ =
    if maxDepth < d + 1 then .error (.tooDeep maxDepth)
    else readSum ⟨rest, d + 1⟩ >>= readClosing := by
  rw [readOperand, readSum, operand]
  dsimp only
  split
  · rfl
  · cases sum ⟨rest, d + 1⟩ with
    | error e => rfl
    | ok p =>
      obtain ⟨w, ⟨⟨ts, e⟩, h⟩⟩ := p
      match ts with
      | [] | ⟨.closing, _⟩ :: _ | ⟨.number _, _⟩ :: _ | ⟨.plus, _⟩ :: _ | ⟨.minus, _⟩ :: _
      | ⟨.times, _⟩ :: _ | ⟨.divide, _⟩ :: _ | ⟨.opening, _⟩ :: _ => rfl

/-- Whether an operand may start with a symbol. -/
def StartsOperand (s : Symbol) : Prop := s = .opening ∨ ∃ v, s = .number v

theorem readOperand_unexpected {token : Token} (h : ¬ StartsOperand token.symbol) :
    readOperand ⟨token :: rest, d⟩ = .error (.unexpected token) := by
  rw [readOperand, operand]
  match token with
  | ⟨.number w, _⟩ | ⟨.opening, _⟩ => simp [StartsOperand] at h
  | ⟨.closing, _⟩ | ⟨.plus, _⟩ | ⟨.minus, _⟩ | ⟨.times, _⟩ | ⟨.divide, _⟩ => rfl

theorem value_eq (ts : List Token) : value ts =
    readSum ⟨ts, 0⟩ >>= fun p =>
      match p.2.rest with
      | [] => .ok p.1
      | token :: _ => .error (.unexpected token) := by
  rw [value, readSum]
  cases sum ⟨ts, 0⟩ with
  | error e => rfl
  | ok p => rfl

end KeypadCalculator.Parser
