import KeypadCalculator.Proofs.Expression.Descent

/-! The parser reads on as long as every token has a place, and its error is about the first one
that has none. -/

namespace KeypadCalculator

open KeypadCalculator.Parser

/-- What comes next: an operand, or an operator behind one, with so many parentheses open. -/
inductive Place where
  | operand (opened : Nat)
  | operator (opened : Nat)
  deriving DecidableEq

namespace Place

def opened : Place → Nat
  | operand n | operator n => n

@[simp] theorem opened_operand (n : ℕ) : (operand n).opened = n := rfl

@[simp] theorem opened_operator (n : ℕ) : (operator n).opened = n := rfl

/-- The place behind a symbol, if the symbol may stand here. A sign leaves the operand wanting. -/
def next? : Place → Symbol → Option Place
  | operand n, .number _ => some (operator n)
  | operand n, .plus | operand n, .minus => some (operand n)
  | operand n, .opening => if n < maxDepth then some (operand (n + 1)) else none
  | operator n, .plus | operator n, .minus | operator n, .times | operator n, .divide =>
    some (operand n)
  | operator (n + 1), .closing => some (operator n)
  | _, _ => none

def after? (p : Place) (ss : List Symbol) : Option Place := ss.foldlM next? p

variable {p q : Place} {s : Symbol} {ss : List Symbol} {n : ℕ}

@[simp] theorem after?_nil (p : Place) : p.after? [] = some p := rfl

theorem after?_cons (p : Place) (s : Symbol) (ss : List Symbol) :
    p.after? (s :: ss) = (p.next? s).bind fun q => q.after? ss := rfl

theorem after?_append (p : Place) (ss us : List Symbol) :
    p.after? (ss ++ us) = (p.after? ss).bind fun q => q.after? us := List.foldlM_append

/-- A sentence stands where an operand may, and leads behind it. -/
theorem after?_of_derives {k : Category} {t : Tree} (h : Derives k ss t)
    (hn : n + t.nesting ≤ maxDepth) : (operand n).after? ss = some (operator n) := by
  induction h generalizing n with
  | product _ ih | signed _ ih | operand _ ih => exact ih hn
  | plus _ _ ihl ihr | minus _ _ ihl ihr | times _ _ ihl ihr | divide _ _ ihl ihr =>
    simp only [Tree.nesting] at hn
    simp [after?_append, after?_cons, next?, ihl (n := n) (by omega), ihr (n := n) (by omega)]
  | positive _ ih | negative _ ih => exact ih hn
  | number v => rfl
  | group _ ih =>
    simp only [Tree.nesting] at hn
    have hroom : n < maxDepth := by omega
    simp [after?_append, after?_cons, next?, hroom, ih (n := n + 1) (by omega)]

end Place

/-- Reading on from a place ends with an error: nothing is left where something is wanted, or the
next token has no place. -/
inductive Strays : Place → List Token → SyntaxError → Prop
  | ended {p} : p ≠ .operator 0 → Strays p [] .unexpectedEnd
  | tooDeep {i rest} : Strays (.operand maxDepth) (⟨.opening, i⟩ :: rest) (.tooDeep maxDepth)
  | unexpected {p token rest} : p.next? token.symbol = none →
      ¬ (p = .operand maxDepth ∧ token.symbol = .opening) →
      Strays p (token :: rest) (.unexpected token)
  | step {p q token rest e} : p.next? token.symbol = some q → Strays q rest e →
      Strays p (token :: rest) e

theorem Strays.append {p q : Place} {us rest : List Token} {e : SyntaxError}
    (hp : p.after? (us.map Token.symbol) = some q) (h : Strays q rest e) :
    Strays p (us ++ rest) e := by
  induction us generalizing p with
  | nil =>
    cases hp
    exact h
  | cons token us ih =>
    obtain ⟨r, hr, hq⟩ := Option.bind_eq_some_iff.mp hp
    exact .step hr (ih hq)

/-- The error is about one of the tokens, or about the end or the depth. -/
theorem Strays.error_cases {p : Place} {ts : List Token} {e : SyntaxError} (h : Strays p ts e) :
    e = .unexpectedEnd ∨ e = .tooDeep maxDepth ∨ ∃ token ∈ ts, e = .unexpected token := by
  induction h with
  | ended => exact Or.inl rfl
  | tooDeep => exact Or.inr (Or.inl rfl)
  | unexpected => exact Or.inr (Or.inr ⟨_, List.mem_cons_self, rfl⟩)
  | step _ _ ih =>
    rcases ih with he | he | ⟨token, hmem, he⟩
    · exact Or.inl he
    · exact Or.inr (Or.inl he)
    · exact Or.inr (Or.inr ⟨token, List.mem_cons_of_mem _ hmem, he⟩)

namespace Parser

variable {k : Category} {v w : Binary64} {c m : Cursor} {n : ℕ} {e : SyntaxError}
  {read : Cursor → Except SyntaxError (Binary64 × Cursor)}
  {loop : Binary64 → Cursor → Except SyntaxError (Binary64 × Cursor)}
  {stops : List Token → Prop}

theorem bind_eq_error {α β : Type} {x : Except SyntaxError α} {f : α → Except SyntaxError β}
    (h : x >>= f = .error e) : x = .error e ∨ ∃ a, x = .ok a ∧ f a = .error e := by
  cases x with
  | error e' =>
    cases h
    exact Or.inl rfl
  | ok a => exact Or.inr ⟨a, rfl, h⟩

theorem sound_readOperand (n : ℕ) : Sound n .operand readOperand := by
  cases n with
  | zero => exact sound_operand_nil
  | succ n => exact sound_operand (sound_readSum n)

theorem sound_readSigned (n : ℕ) : Sound n .signed readSigned := sound_signed (sound_readOperand n)

theorem sound_readProduct (n : ℕ) : Sound n .product readProduct :=
  sound_product (sound_readSigned n)

/-- What strays behind tokens that were read strays from in front of them. -/
theorem Consumes.strays (h : Consumes k c m v) (hs : Strays (.operator m.depth) m.rest e) :
    Strays (.operand c.depth) c.rest e := by
  obtain ⟨us, t, hrest, hdepth, ht, hnest, -⟩ := h
  rw [hrest]
  apply Strays.append _ hs
  rw [hdepth]
  exact Place.after?_of_derives ht hnest

/-- A loop stops, or an operator goes by and the reader of its right operand. -/
def Rounds (stops : List Token → Prop) (read : Cursor → Except SyntaxError (Binary64 × Cursor))
    (loop : Binary64 → Cursor → Except SyntaxError (Binary64 × Cursor)) : Prop :=
  ∀ v c, (stops c.rest ∧ loop v c = .ok (v, c)) ∨
    ∃ (s : Symbol) (op : Binary64 → Binary64 → Binary64) (i : ℕ) (rest : List Token),
    (∀ n, (Place.operator n).next? s = some (.operand n)) ∧ c.rest = ⟨s, i⟩ :: rest ∧
      loop v c = read ⟨rest, c.depth⟩ >>= fun p => loop (op v p.1) p.2

theorem rounds_terms : Rounds EndsSum readProduct readTerms := by
  intro v ⟨rest, d⟩
  match rest with
  | ⟨.plus, i⟩ :: rest => exact Or.inr ⟨.plus, _, i, rest, fun _ => rfl, rfl, readTerms_plus⟩
  | ⟨.minus, i⟩ :: rest => exact Or.inr ⟨.minus, _, i, rest, fun _ => rfl, rfl, readTerms_minus⟩
  | [] | ⟨.number _, _⟩ :: _ | ⟨.times, _⟩ :: _ | ⟨.divide, _⟩ :: _ | ⟨.opening, _⟩ :: _
  | ⟨.closing, _⟩ :: _ => exact Or.inl ⟨by simp [EndsSum], readTerms_end (by simp [EndsSum])⟩

theorem rounds_factors : Rounds EndsProduct readSigned readFactors := by
  intro v ⟨rest, d⟩
  match rest with
  | ⟨.times, i⟩ :: rest => exact Or.inr ⟨.times, _, i, rest, fun _ => rfl, rfl, readFactors_times⟩
  | ⟨.divide, i⟩ :: rest =>
    exact Or.inr ⟨.divide, _, i, rest, fun _ => rfl, rfl, readFactors_divide⟩
  | [] | ⟨.number _, _⟩ :: _ | ⟨.plus, _⟩ :: _ | ⟨.minus, _⟩ :: _ | ⟨.opening, _⟩ :: _
  | ⟨.closing, _⟩ :: _ =>
    exact Or.inl ⟨by simp [EndsProduct], readFactors_end (by simp [EndsProduct])⟩

/-- A reader makes its cursor shorter, and leaves it where `stops` holds. -/
def Leaves (stops : List Token → Prop) (read : Cursor → Except SyntaxError (Binary64 × Cursor)) :
    Prop :=
  ∀ c v m, read c = .ok (v, m) → m.rest.length < c.rest.length ∧ stops m.rest

theorem Reading.length_lt {r : Reading n} (h : r.plain = .ok (v, m)) : m.rest.length < n := by
  cases r with
  | error e => cases h
  | ok p =>
    cases h
    exact p.2.2

/-- A loop ends where it stops, and where the readers of its operands left it. -/
theorem Rounds.leaves {before : List Token → Prop} (h : Rounds stops read loop)
    (hread : Leaves before read) (hc : before c.rest) (hok : loop v c = .ok (w, m)) :
    stops m.rest ∧ before m.rest := by
  induction hlen : c.rest.length using Nat.strongRecOn generalizing c v with
  | ind r ih =>
    rcases h v c with ⟨hstops, heq⟩ | ⟨s, op, i, rest, -, hrest, heq⟩
    · rw [heq] at hok
      cases hok
      exact ⟨hstops, hc⟩
    · rw [heq] at hok
      obtain ⟨⟨x, a⟩, ha, hnext⟩ := bind_eq_ok hok
      obtain ⟨hlt, hbefore⟩ := hread _ _ _ ha
      have hshort : rest.length < r := by simp [← hlen, hrest]
      exact ih a.rest.length (Nat.lt_trans hlt hshort) hbefore hnext rfl

theorem leaves_readSigned : Leaves (fun _ => True) readSigned := fun _ _ _ h =>
  ⟨Reading.length_lt h, trivial⟩

theorem leaves_readProduct : Leaves EndsProduct readProduct := by
  intro c v m h
  refine ⟨Reading.length_lt h, ?_⟩
  rw [readProduct_eq] at h
  obtain ⟨⟨x, a⟩, -, hnext⟩ := bind_eq_ok h
  exact (rounds_factors.leaves leaves_readSigned trivial hnext).1

/-- Behind a sum there is no operator. -/
theorem leaves_readSum : Leaves (fun ts => EndsSum ts ∧ EndsProduct ts) readSum := by
  intro c v m h
  refine ⟨Reading.length_lt h, ?_⟩
  rw [readSum_eq] at h
  obtain ⟨⟨x, a⟩, ha, hnext⟩ := bind_eq_ok h
  exact rounds_terms.leaves leaves_readProduct (leaves_readProduct _ _ _ ha).2 hnext

/-- The errors of a reader on cursors with fewer than `n` tokens are those of tokens that stray. -/
def Located (n : ℕ) (read : Cursor → Except SyntaxError (Binary64 × Cursor)) : Prop :=
  ∀ c e, c.rest.length < n → c.depth ≤ maxDepth → read c = .error e →
    Strays (.operand c.depth) c.rest e

/-- The error of a loop is that of the reader of an operand, behind operands that were read. -/
theorem Rounds.strays (h : Rounds stops read loop) (ih : Located n read) (hs : Sound n k read)
    (hn : c.rest.length < n) (hd : c.depth ≤ maxDepth) (herr : loop v c = .error e) :
    Strays (.operator c.depth) c.rest e := by
  induction hlen : c.rest.length using Nat.strongRecOn generalizing c v with
  | ind r ihr =>
    rcases h v c with ⟨-, heq⟩ | ⟨s, op, i, rest, hplace, hrest, heq⟩ <;> rw [heq] at herr
    · cases herr
    · have hshort : rest.length < r := by simp [← hlen, hrest]
      rw [hrest]
      apply Strays.step (hplace c.depth)
      rcases bind_eq_error herr with hread | ⟨⟨x, m⟩, hread, hnext⟩
      · exact ih ⟨rest, c.depth⟩ e (by simp only; omega) hd hread
      · have hm := hs ⟨rest, c.depth⟩ m x (by simp only; omega) hd hread
        have hlt := hm.length_lt
        have hdm := hm.depth_le
        simp only at hlt
        exact hm.strays (ihr m.rest.length (by omega) (by omega) hdm hnext rfl)

/-- Behind a sum only the parenthesis that was opened before it may stand. -/
theorem strays_behind_sum (h : readSum c = .ok (v, m))
    {token : Token} {rest : List Token} (hrest : m.rest = token :: rest)
    (hclose : m.depth = 0 ∨ token.symbol ≠ .closing) :
    Strays (.operator m.depth) m.rest (.unexpected token) := by
  obtain ⟨hsum, hproduct⟩ := (leaves_readSum _ _ _ h).2
  rw [hrest] at hsum hproduct ⊢
  obtain ⟨s, i⟩ := token
  apply Strays.unexpected
  · cases s with
    | number | opening => rfl
    | closing =>
      have hzero : m.depth = 0 := by simpa using hclose
      rw [hzero]
      rfl
    | plus | minus => simp [EndsSum] at hsum
    | times | divide => simp [EndsProduct] at hproduct
  · simp

/-- Signs have gone by when an operand is read. -/
theorem strays_of_readOperand {rest : List Token} {d : ℕ} (ih : Located n readSum)
    (hn : rest.length ≤ n) (hd : d ≤ maxDepth) (hsigns : EndsSum rest)
    (h : readOperand ⟨rest, d⟩ = .error e) : Strays (.operand d) rest e := by
  match rest with
  | [] =>
    rw [readOperand_nil] at h
    cases h
    exact .ended (by simp)
  | ⟨.number w, i⟩ :: rest =>
    rw [readOperand_number] at h
    cases h
  | ⟨.opening, i⟩ :: rest =>
    have hrest : rest.length < n := Nat.lt_of_succ_le hn
    rw [readOperand_opening] at h
    split at h
    · next hdeep =>
      cases h
      obtain rfl : d = maxDepth := by omega
      exact .tooDeep
    · next hroom =>
      have hd' : d + 1 ≤ maxDepth := by omega
      apply Strays.step (q := .operand (d + 1))
      · simp [Place.next?, show d < maxDepth by omega]
      · rcases bind_eq_error h with hsum | ⟨⟨w, m⟩, hsum, hclose⟩
        · exact ih ⟨rest, d + 1⟩ e hrest hd' hsum
        · have hm := sound_readSum n ⟨rest, d + 1⟩ m w hrest.le hd' hsum
          apply hm.strays
          have hopen : m.depth = d + 1 := hm.depth_eq
          match hrest : m.rest with
          | [] =>
            simp only [readClosing, hrest] at hclose
            cases hclose
            exact .ended (by simp [hopen])
          | ⟨.closing, j⟩ :: tail =>
            simp only [readClosing, hrest] at hclose
            cases hclose
          | ⟨.number _, _⟩ :: _ | ⟨.plus, _⟩ :: _ | ⟨.minus, _⟩ :: _ | ⟨.times, _⟩ :: _
          | ⟨.divide, _⟩ :: _ | ⟨.opening, _⟩ :: _ =>
            simp only [readClosing, hrest] at hclose
            cases hclose
            rw [← hrest]
            exact strays_behind_sum hsum hrest (Or.inr (by simp))
  | ⟨.times, _⟩ :: _ | ⟨.divide, _⟩ :: _ | ⟨.closing, _⟩ :: _ =>
    rw [readOperand_unexpected (by simp [StartsOperand])] at h
    cases h
    exact .unexpected rfl (by simp)
  | ⟨.plus, _⟩ :: _ | ⟨.minus, _⟩ :: _ => simp [EndsSum] at hsigns

theorem located_signed (ih : Located n readSum) : Located (n + 1) readSigned := by
  intro ⟨rest, d⟩ e hn hd h
  induction rest with
  | nil =>
    rw [readSigned_operand (by simp [EndsSum])] at h
    exact strays_of_readOperand ih (Nat.zero_le n) hd (by simp [EndsSum]) h
  | cons token rest ihr =>
    obtain ⟨s, i⟩ := token
    have hrest : rest.length < n + 1 := by
      simp only [List.length_cons] at hn
      omega
    cases s with
    | plus =>
      rw [readSigned_plus] at h
      exact .step rfl (ihr hrest hd h)
    | minus =>
      rw [readSigned_minus] at h
      rcases bind_eq_error h with h | ⟨_, -, h⟩
      · exact .step rfl (ihr hrest hd h)
      · cases h
    | number | times | divide | opening | closing =>
      rw [readSigned_operand (by simp [EndsSum])] at h
      exact strays_of_readOperand ih (Nat.le_of_lt_succ hn) hd (by simp [EndsSum]) h

theorem located_product (ih : Located n readSigned) : Located n readProduct := by
  intro c e hn hd h
  rw [readProduct_eq] at h
  rcases bind_eq_error h with h | ⟨⟨v, m⟩, hread, h⟩
  · exact ih c e hn hd h
  · have hm := sound_readSigned n c m v hn.le hd hread
    have hlt := hm.length_lt
    exact hm.strays
      (rounds_factors.strays ih (sound_readSigned n) (Nat.lt_trans hlt hn) hm.depth_le h)

theorem located_sum (ih : Located n readProduct) : Located n readSum := by
  intro c e hn hd h
  rw [readSum_eq] at h
  rcases bind_eq_error h with h | ⟨⟨v, m⟩, hread, h⟩
  · exact ih c e hn hd h
  · have hm := sound_readProduct n c m v hn.le hd hread
    have hlt := hm.length_lt
    exact hm.strays
      (rounds_terms.strays ih (sound_readProduct n) (Nat.lt_trans hlt hn) hm.depth_le h)

theorem located_readSum (n : ℕ) : Located n readSum := by
  induction n with
  | zero =>
    intro c e hn
    exact absurd hn (Nat.not_lt_zero _)
  | succ n ih => exact located_sum (located_product (located_signed ih))

/-- The error of the parser is about the first token that has no place, or the end. -/
theorem strays_of_value {ts : List Token} (h : value ts = .error e) :
    Strays (.operand 0) ts e := by
  rw [value_eq] at h
  rcases bind_eq_error h with h | ⟨⟨v, m⟩, hsum, hend⟩
  · exact located_readSum _ ⟨ts, 0⟩ e (Nat.lt_succ_self _) (Nat.zero_le _) h
  · have hm := sound_readSum _ ⟨ts, 0⟩ m v (Nat.le_refl _) (Nat.zero_le _) hsum
    have hdepth : m.depth = 0 := hm.depth_eq
    match hrest : m.rest with
    | [] =>
      simp only [hrest] at hend
      cases hend
    | token :: rest =>
      simp only [hrest] at hend
      cases hend
      exact hm.strays (strays_behind_sum hsum hrest (Or.inl hdepth))

end Parser

end KeypadCalculator
