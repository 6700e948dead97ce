import KeypadCalculator.Proofs.Expression.Grammar
import KeypadCalculator.Proofs.Expression.Reading

/-! The parser reads exactly the sentences of the grammar, and reads them as their trees. -/

namespace KeypadCalculator.Parser

variable {k : Category} {us rest : List Token} {t : Tree} {v w : Binary64} {c e : Cursor}
  {d n : Nat}

/-- Tokens of a category with the value `v` are read off the front of `rest`. A chain may go on in
`rest`, so its reader is left in the loop of the chain. -/
def ReadsOff (k : Category) (us : List Token) (v : Binary64) (d : Nat) (rest : List Token) : Prop :=
  match k with
  | .sum => EndsProduct rest → readSum ⟨us ++ rest, d⟩ = readTerms v ⟨rest, d⟩
  | .product => readProduct ⟨us ++ rest, d⟩ = readFactors v ⟨rest, d⟩
  | .signed => readSigned ⟨us ++ rest, d⟩ = .ok (v, ⟨rest, d⟩)
  | .operand => readOperand ⟨us ++ rest, d⟩ = .ok (v, ⟨rest, d⟩)

theorem symbols_cons {s : Symbol} {ss : List Symbol} (h : us.map Token.symbol = s :: ss) :
    ∃ i rs, us = ⟨s, i⟩ :: rs ∧ rs.map Token.symbol = ss := by
  obtain ⟨⟨s', i⟩, rs, rfl, rfl, hrs⟩ := List.map_eq_cons_iff.mp h
  exact ⟨i, rs, rfl, hrs⟩

theorem symbols_chain {s : Symbol} {ls rs : List Symbol}
    (h : us.map Token.symbol = ls ++ s :: rs) :
    ∃ as i bs, us = as ++ ⟨s, i⟩ :: bs ∧ as.map Token.symbol = ls ∧ bs.map Token.symbol = rs := by
  obtain ⟨as, tail, rfl, has, htail⟩ := List.map_eq_append_iff.mp h
  obtain ⟨i, bs, rfl, hbs⟩ := symbols_cons htail
  exact ⟨as, i, bs, rfl, has, hbs⟩

theorem endsSum_operand {ss : List Symbol} (h : Derives .operand ss t)
    (hs : us.map Token.symbol = ss) : EndsSum (us ++ rest) := by
  cases h with
  | number v =>
    obtain ⟨i, tail, rfl, -⟩ := symbols_cons hs
    simp [EndsSum]
  | group h =>
    obtain ⟨i, tail, rfl, -⟩ := symbols_cons hs
    simp [EndsSum]

/-- A sum goes on with an operator and a product. -/
theorem readsOff_terms {s : Symbol} {op : Binary64 → Binary64 → Binary64} {ls rs : List Token}
    {i : Nat} (hstep : ∀ v ts, readTerms v ⟨⟨s, i⟩ :: ts, d⟩ =
      readProduct ⟨ts, d⟩ >>= fun p => readTerms (op v p.1) p.2)
    (hs : s ≠ .times ∧ s ≠ .divide) (hl : ReadsOff .sum ls v d (⟨s, i⟩ :: (rs ++ rest)))
    (hr : ReadsOff .product rs w d rest) : ReadsOff .sum (ls ++ ⟨s, i⟩ :: rs) (op v w) d rest := by
  intro he
  have hsum : readSum ⟨ls ++ ⟨s, i⟩ :: (rs ++ rest), d⟩ = _ := hl (by simpa [EndsProduct] using hs)
  have hproduct : readProduct ⟨rs ++ rest, d⟩ = _ := hr
  rw [List.append_assoc, List.cons_append, hsum, hstep, hproduct, readFactors_end he]
  rfl

/-- A product goes on with an operator and a signed operand. -/
theorem readsOff_factors {s : Symbol} {op : Binary64 → Binary64 → Binary64} {ls rs : List Token}
    {i : Nat} (hstep : ∀ v ts, readFactors v ⟨⟨s, i⟩ :: ts, d⟩ =
      readSigned ⟨ts, d⟩ >>= fun p => readFactors (op v p.1) p.2)
    (hl : ReadsOff .product ls v d (⟨s, i⟩ :: (rs ++ rest)))
    (hr : ReadsOff .signed rs w d rest) :
    ReadsOff .product (ls ++ ⟨s, i⟩ :: rs) (op v w) d rest := by
  have hproduct : readProduct ⟨ls ++ ⟨s, i⟩ :: (rs ++ rest), d⟩ = _ := hl
  have hsigned : readSigned ⟨rs ++ rest, d⟩ = _ := hr
  rw [ReadsOff, List.append_assoc, List.cons_append, hproduct, hstep, hsigned]
  rfl

theorem readsOff_of_derives {ss : List Symbol} (h : Derives k ss t)
    (hs : us.map Token.symbol = ss) (hd : d + t.nesting ≤ maxDepth) :
    ReadsOff k us t.eval d rest := by
  induction h generalizing us d rest with
  | product h ih =>
    intro hr
    have hp : readProduct ⟨us ++ rest, d⟩ = _ := ih hs hd
    rw [readSum_eq, hp, readFactors_end hr]
    rfl
  | plus hl hr ihl ihr =>
    simp only [Tree.nesting] at hd
    obtain ⟨ls, i, rs, rfl, hls, hrs⟩ := symbols_chain hs
    apply readsOff_terms (fun _ _ => readTerms_plus) (by simp)
    · exact ihl hls (by omega)
    · exact ihr hrs (by omega)
  | minus hl hr ihl ihr =>
    simp only [Tree.nesting] at hd
    obtain ⟨ls, i, rs, rfl, hls, hrs⟩ := symbols_chain hs
    apply readsOff_terms (fun _ _ => readTerms_minus) (by simp)
    · exact ihl hls (by omega)
    · exact ihr hrs (by omega)
  | signed h ih =>
    have hp : readSigned ⟨us ++ rest, d⟩ = _ := ih hs hd
    rw [ReadsOff, readProduct_eq, hp]
    rfl
  | times hl hr ihl ihr =>
    simp only [Tree.nesting] at hd
    obtain ⟨ls, i, rs, rfl, hls, hrs⟩ := symbols_chain hs
    apply readsOff_factors fun _ _ => readFactors_times
    · exact ihl hls (by omega)
    · exact ihr hrs (by omega)
  | divide hl hr ihl ihr =>
    simp only [Tree.nesting] at hd
    obtain ⟨ls, i, rs, rfl, hls, hrs⟩ := symbols_chain hs
    apply readsOff_factors fun _ _ => readFactors_divide
    · exact ihl hls (by omega)
    · exact ihr hrs (by omega)
  | operand h ih =>
    have hp : readOperand ⟨us ++ rest, d⟩ = _ := ih hs hd
    rw [ReadsOff, readSigned_operand (endsSum_operand h hs), hp]
  | positive h ih =>
    obtain ⟨i, us, rfl, hus⟩ := symbols_cons hs
    have hp : readSigned ⟨us ++ rest, d⟩ = _ := ih hus hd
    rw [ReadsOff, List.cons_append, readSigned_plus, hp]
  | negative h ih =>
    obtain ⟨i, us, rfl, hus⟩ := symbols_cons hs
    have hp : readSigned ⟨us ++ rest, d⟩ = _ := ih hus hd
    rw [ReadsOff, List.cons_append, readSigned_minus, hp]
    rfl
  | number v =>
    obtain ⟨i, us, rfl, hus⟩ := symbols_cons hs
    obtain rfl := List.map_eq_nil_iff.mp hus
    exact readOperand_number
  | @group ss t h ih =>
    simp only [Tree.nesting] at hd
    obtain ⟨i, us, rfl, hus⟩ := symbols_cons hs
    obtain ⟨ms, j, tail, rfl, hms, htail⟩ := symbols_chain hus
    obtain rfl := List.map_eq_nil_iff.mp htail
    have hsum : readSum ⟨ms ++ ⟨.closing, j⟩ :: rest, d + 1⟩ = _ :=
      ih hms (by omega) (by simp [EndsProduct])
    rw [ReadsOff, List.cons_append, List.append_assoc, List.cons_append, List.nil_append,
      readOperand_opening, if_neg (by omega), hsum, readTerms_end (by simp [EndsSum])]
    rfl

/-- The reader went from `c` to `e` over tokens of a category with the value `v`, and could. -/
def Consumes (k : Category) (c e : Cursor) (v : Binary64) : Prop :=
  ∃ us t, c.rest = us ++ e.rest ∧ e.depth = c.depth ∧ Derives k (us.map Token.symbol) t ∧
    c.depth + t.nesting ≤ maxDepth ∧ t.eval = v

theorem Consumes.length_lt (h : Consumes k c e v) : e.rest.length < c.rest.length := by
  obtain ⟨us, t, hrest, -, ht, -⟩ := h
  have hpos : 0 < us.length := List.length_pos_iff.mpr (by simpa using ht.ne_nil)
  simp [hrest, hpos]

theorem Consumes.depth_eq (h : Consumes k c e v) : e.depth = c.depth := by
  obtain ⟨-, -, -, hdepth, -⟩ := h
  exact hdepth

/-- What the readers of a category make of all cursors with at most `n` tokens is sound. -/
def Sound (n : Nat) (k : Category) (read : Cursor → Except SyntaxError (Binary64 × Cursor)) :
    Prop :=
  ∀ c e v, c.rest.length ≤ n → c.depth ≤ maxDepth → read c = .ok (v, e) → Consumes k c e v

theorem sound_operand_nil : Sound 0 .operand readOperand := by
  intro ⟨rest, d⟩ e v hn hd h
  obtain rfl : rest = [] := List.length_eq_zero_iff.mp (Nat.le_zero.mp hn)
  rw [readOperand_nil] at h
  cases h

theorem sound_operand (ih : Sound n .sum readSum) : Sound (n + 1) .operand readOperand := by
  intro ⟨rest, d⟩ e v hn hd h
  match rest with
  | [] =>
    rw [readOperand_nil] at h
    cases h
  | ⟨.number w, i⟩ :: rest =>
    rw [readOperand_number] at h
    cases h
    exact ⟨[⟨.number v, i⟩], .number v, rfl, rfl, .number v, hd, rfl⟩
  | ⟨.opening, i⟩ :: rest =>
    rw [readOperand_opening] at h
    split at h
    · cases h
    · obtain ⟨⟨w, c⟩, hsum, hclose⟩ := bind_eq_ok h
      obtain ⟨us, t, hus, hc, ht, hnest, rfl⟩ := ih _ _ _ (by simpa using hn) (by simp; omega) hsum
      obtain ⟨tail, d'⟩ := c
      match tail with
      | ⟨.closing, j⟩ :: tail =>
        cases hclose
        simp only at hus hc hnest
        refine ⟨⟨.opening, i⟩ :: us ++ [⟨.closing, j⟩], .group t, by simp [hus], by simp [hc], ?_,
          by simp only [Tree.nesting]; omega, rfl⟩
        simpa using ht.group
      | [] | ⟨.number _, _⟩ :: _ | ⟨.plus, _⟩ :: _ | ⟨.minus, _⟩ :: _ | ⟨.times, _⟩ :: _
      | ⟨.divide, _⟩ :: _ | ⟨.opening, _⟩ :: _ => cases hclose
  | ⟨.plus, _⟩ :: _ | ⟨.minus, _⟩ :: _ | ⟨.times, _⟩ :: _ | ⟨.divide, _⟩ :: _
  | ⟨.closing, _⟩ :: _ =>
    rw [readOperand_unexpected (by simp [StartsOperand])] at h
    cases h

theorem Consumes.weaken {j : Category} (hsub : ∀ {ts t}, Derives j ts t → Derives k ts t)
    (h : Consumes j c e v) : Consumes k c e v := by
  obtain ⟨us, t, hus, he, ht, hnest, hv⟩ := h
  exact ⟨us, t, hus, he, hsub ht, hnest, hv⟩

theorem sound_signed (ih : Sound n .operand readOperand) : Sound n .signed readSigned := by
  intro ⟨rest, d⟩ e v hn hd h
  induction rest generalizing v with
  | nil =>
    rw [readSigned_operand (by simp [EndsSum])] at h
    exact (ih _ _ _ hn hd h).weaken .operand
  | cons token rest ihr =>
    obtain ⟨s, i⟩ := token
    have hrest : rest.length ≤ n := by
      simp only [List.length_cons] at hn
      omega
    cases s with
    | plus =>
      rw [readSigned_plus] at h
      obtain ⟨us, t, hus, he, ht, hnest, rfl⟩ := ihr v hrest hd h
      exact ⟨⟨.plus, i⟩ :: us, t, by simpa using hus, he, .positive ht, hnest, rfl⟩
    | minus =>
      rw [readSigned_minus] at h
      obtain ⟨⟨w, c⟩, hsigned, hw⟩ := bind_eq_ok h
      cases hw
      obtain ⟨us, t, hus, he, ht, hnest, rfl⟩ := ihr w hrest hd hsigned
      exact ⟨⟨.minus, i⟩ :: us, .negative t, by simpa using hus, he, .negative ht, hnest, rfl⟩
    | number | times | divide | opening | closing =>
      rw [readSigned_operand (by simp [EndsSum])] at h
      exact (ih _ _ _ hn hd h).weaken .operand

theorem Consumes.depth_le {a : Cursor} (h : Consumes k a c v) : c.depth ≤ maxDepth := by
  obtain ⟨us, t, -, hc, -, hnest, -⟩ := h
  omega

/-- A chain goes on with an operator and its right operand. -/
theorem Consumes.chain {a : Cursor} {i : Nat} {s : Symbol} {j : Category}
    {op : Binary64 → Binary64 → Binary64} (hs : Chains k j s op)
    (hl : Consumes k a c v) (hc : c.rest = ⟨s, i⟩ :: rest)
    (hr : Consumes j ⟨rest, c.depth⟩ e w) : Consumes k a e (op v w) := by
  obtain ⟨node, hnode, hnesting, heval⟩ := hs
  obtain ⟨ls, l, hls, hca, hl, hln, rfl⟩ := hl
  obtain ⟨rs, r, hrs, hem, hr, hrn, rfl⟩ := hr
  simp only at hrs hem hrn
  refine ⟨ls ++ ⟨s, i⟩ :: rs, node l r, by simp [hls, hc, hrs], by omega, ?_, ?_, heval l r⟩
  · simpa using hnode _ _ l r hl hr
  · rw [hnesting]
    omega

/-- What a round of the loop of a chain does: the chain ends, or an operator goes by and the reader
of its right operand. -/
def Loops (k j : Category) (read : Cursor → Except SyntaxError (Binary64 × Cursor))
    (loop : Binary64 → Cursor → Except SyntaxError (Binary64 × Cursor)) : Prop :=
  ∀ v c w e, loop v c = .ok (w, e) → (w = v ∧ e = c) ∨ ∃ s op i rest x m, Chains k j s op ∧
    c.rest = ⟨s, i⟩ :: rest ∧ read ⟨rest, c.depth⟩ = .ok (x, m) ∧ loop (op v x) m = .ok (w, e)

theorem loops_terms : Loops .sum .product readProduct readTerms := by
  intro v ⟨rest, d⟩ w e h
  cases rest with
  | nil =>
    rw [readTerms_end (by simp [EndsSum])] at h
    cases h
    exact Or.inl ⟨rfl, rfl⟩
  | cons token rest =>
    obtain ⟨s, i⟩ := token
    cases s with
    | plus =>
      rw [readTerms_plus] at h
      obtain ⟨⟨x, m⟩, hread, hloop⟩ := bind_eq_ok h
      exact Or.inr ⟨_, _, i, rest, x, m, chains_plus, rfl, hread, hloop⟩
    | minus =>
      rw [readTerms_minus] at h
      obtain ⟨⟨x, m⟩, hread, hloop⟩ := bind_eq_ok h
      exact Or.inr ⟨_, _, i, rest, x, m, chains_minus, rfl, hread, hloop⟩
    | number | times | divide | opening | closing =>
      rw [readTerms_end (by simp [EndsSum])] at h
      cases h
      exact Or.inl ⟨rfl, rfl⟩

theorem loops_factors : Loops .product .signed readSigned readFactors := by
  intro v ⟨rest, d⟩ w e h
  cases rest with
  | nil =>
    rw [readFactors_end (by simp [EndsProduct])] at h
    cases h
    exact Or.inl ⟨rfl, rfl⟩
  | cons token rest =>
    obtain ⟨s, i⟩ := token
    cases s with
    | times =>
      rw [readFactors_times] at h
      obtain ⟨⟨x, m⟩, hread, hloop⟩ := bind_eq_ok h
      exact Or.inr ⟨_, _, i, rest, x, m, chains_times, rfl, hread, hloop⟩
    | divide =>
      rw [readFactors_divide] at h
      obtain ⟨⟨x, m⟩, hread, hloop⟩ := bind_eq_ok h
      exact Or.inr ⟨_, _, i, rest, x, m, chains_divide, rfl, hread, hloop⟩
    | number | plus | minus | opening | closing =>
      rw [readFactors_end (by simp [EndsProduct])] at h
      cases h
      exact Or.inl ⟨rfl, rfl⟩

/-- A loop is sound when its operand reader is, whatever the chain was read from. -/
theorem Loops.sound {j : Category} {a : Cursor}
    {read : Cursor → Except SyntaxError (Binary64 × Cursor)}
    {loop : Binary64 → Cursor → Except SyntaxError (Binary64 × Cursor)}
    (hloop : Loops k j read loop) (ih : Sound n j read) (hn : c.rest.length ≤ n)
    (ha : Consumes k a c v) (h : loop v c = .ok (w, e)) : Consumes k a e w := by
  induction hk : c.rest.length using Nat.strongRecOn generalizing c v with
  | ind r ihr =>
    rcases hloop v c w e h with ⟨rfl, rfl⟩ | ⟨s, op, i, rest, x, m, hs, hc, hread, hnext⟩
    · exact ha
    · have hlen : c.rest.length = rest.length + 1 := by rw [hc, List.length_cons]
      have hm : Consumes j ⟨rest, c.depth⟩ m x := by
        apply ih ⟨rest, c.depth⟩ _ _ _ ha.depth_le hread
        exact Nat.le_of_lt (Nat.lt_of_lt_of_le (by simp [hc]) hn)
      have hlt : m.rest.length < rest.length := hm.length_lt
      exact ihr _ (by omega) (by omega) (ha.chain hs hc hm) hnext rfl

theorem sound_sum (ih : Sound n .product readProduct) : Sound n .sum readSum := by
  intro c e v hn hd h
  rw [readSum_eq] at h
  obtain ⟨⟨w, m⟩, hproduct, hnext⟩ := bind_eq_ok h
  have hm := ih _ _ _ hn hd hproduct
  have hmn : m.rest.length ≤ n := Nat.le_trans (Nat.le_of_lt hm.length_lt) hn
  exact loops_terms.sound ih hmn (hm.weaken .product) hnext

theorem sound_product (ih : Sound n .signed readSigned) : Sound n .product readProduct := by
  intro c e v hn hd h
  rw [readProduct_eq] at h
  obtain ⟨⟨w, m⟩, hsigned, hnext⟩ := bind_eq_ok h
  have hm := ih _ _ _ hn hd hsigned
  have hmn : m.rest.length ≤ n := Nat.le_trans (Nat.le_of_lt hm.length_lt) hn
  exact loops_factors.sound ih hmn (hm.weaken .signed) hnext

/-- Every parenthesis takes a token, so soundness for shorter cursors carries the induction. -/
theorem sound_readSum (n : Nat) : Sound n .sum readSum := by
  induction n with
  | zero => exact sound_sum (sound_product (sound_signed sound_operand_nil))
  | succ n ih => exact sound_sum (sound_product (sound_signed (sound_operand ih)))

theorem value_eq_ok_iff {ts : List Token} : value ts = .ok v ↔
    ∃ t, Derives .sum (ts.map Token.symbol) t ∧ t.nesting ≤ maxDepth ∧ t.eval = v := by
  rw [value_eq]
  constructor
  · intro h
    obtain ⟨⟨w, rest, d⟩, hsum, hend⟩ := bind_eq_ok h
    obtain ⟨us, t, hus, -, ht, hnest, rfl⟩ :=
      sound_readSum _ _ _ _ (Nat.le_refl _) (Nat.zero_le _) hsum
    match rest with
    | [] =>
      cases hend
      obtain rfl : ts = us := by simpa using hus
      exact ⟨t, ht, by simpa using hnest, rfl⟩
    | token :: rest => cases hend
  · rintro ⟨t, ht, hnest, rfl⟩
    have hsum : readSum ⟨ts ++ [], 0⟩ = _ :=
      readsOff_of_derives ht rfl (by simpa using hnest) (by simp [EndsProduct])
    rw [List.append_nil] at hsum
    rw [hsum, readTerms_end (by simp [EndsSum])]
    rfl

/-- A text has a value exactly when its tokens are a sentence of the grammar that does not nest too
deep, and the value is that of the sentence's syntax tree. -/
theorem valueOfText_eq_ok_iff (text : Text) (v : Binary64) : valueOfText text = .ok v ↔
    ∃ tokens t, Token.scan text = .ok tokens ∧ Derives .sum (tokens.map Token.symbol) t ∧
      t.nesting ≤ maxDepth ∧ t.eval = v := by
  rw [valueOfText]
  cases hscan : Token.scan text with
  | error e => simp
  | ok tokens => simp [value_eq_ok_iff]

end KeypadCalculator.Parser
