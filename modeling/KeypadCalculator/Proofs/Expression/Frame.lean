import KeypadCalculator.Proofs.Expression.Visits

/-! What a reader does is settled by the tokens that it takes and by the one behind them. It takes
whole groups only, so it leaves as many parentheses open as it finds. -/

namespace KeypadCalculator

variable {k : Category} {ss : List Symbol} {t : Tree}

/-- All parentheses are closed, and none is closed that has not been opened. -/
structure Balanced (ss : List Symbol) : Prop where
  count_eq : ss.count .opening = ss.count .closing
  closing_le : ∀ us, us <+: ss → us.count .closing ≤ us.count .opening

theorem Derives.balanced (h : Derives k ss t) (hnest : t.nesting ≤ Parser.maxDepth) :
    Balanced ss := by
  refine ⟨h.count_eq, ?_⟩
  rintro us ⟨rest, rfl⟩
  have hplace := Place.after?_of_derives h (n := 0) (by omega)
  rw [Place.after?_append] at hplace
  obtain ⟨q, hq, -⟩ := Option.bind_eq_some_iff.mp hplace
  have hopened := after?_opened hq
  rw [Place.opened_operand] at hopened
  omega

namespace Parser

variable {ts us : List Token} {c m : Cursor} {v : Binary64} {d : ℕ}

/-- No reader that was called for something of this category goes on here. -/
def EndsBehind : Category → List Token → Prop
  | .sum, ts => EndsSum ts ∧ EndsProduct ts
  | .product, ts => EndsProduct ts
  | .signed, _ | .operand, _ => True

/-- One token decides it. -/
theorem EndsBehind.of_head? (h : EndsBehind k ts) (hhead : us.head? = ts.head?) :
    EndsBehind k us := by
  cases k with
  | sum =>
    simp only [EndsBehind, EndsSum, EndsProduct, hhead] at h ⊢
    exact h
  | product =>
    simp only [EndsBehind, EndsProduct, hhead] at h ⊢
    exact h
  | signed | operand => trivial

theorem endsBehind_of_read (h : read k c = .ok (v, m)) : EndsBehind k m.rest := by
  cases k with
  | sum => exact (leaves_readSum c v m h).2
  | product => exact (leaves_readProduct c v m h).2
  | signed | operand => trivial

/-- A reader takes a whole text of its category, if nothing behind the text goes on with it. -/
theorem read_of_derives (ht : Derives k (us.map Token.symbol) t) (hnest : d + t.nesting ≤ maxDepth)
    (hend : EndsBehind k ts) : read k ⟨us ++ ts, d⟩ = .ok (t.eval, ⟨ts, d⟩) := by
  have hreads : ReadsOff k us t.eval d ts := readsOff_of_derives ht rfl hnest
  cases k with
  | sum => exact (hreads hend.2).trans (readTerms_end hend.1)
  | product => exact hreads.trans (readFactors_end hend)
  | signed | operand => exact hreads

/-- The tokens that a reader takes decide on its value, with the one behind them. -/
theorem exists_taken (hd : c.depth ≤ maxDepth) (h : read k c = .ok (v, m)) :
    ∃ us, us ≠ [] ∧ c.rest = us ++ m.rest ∧ m.depth = c.depth ∧ Balanced (us.map Token.symbol) ∧
      ∀ ts, ts.head? = m.rest.head? → read k ⟨us ++ ts, c.depth⟩ = .ok (v, ⟨ts, c.depth⟩) := by
  obtain ⟨us, t, hrest, hdepth, ht, hnest, rfl⟩ := sound_read _ k c m v le_rfl hd h
  have hne : us ≠ [] := by
    rintro rfl
    exact ht.ne_nil rfl
  refine ⟨us, hne, hrest, hdepth, ht.balanced (by omega), ?_⟩
  intro ts hhead
  exact read_of_derives ht hnest ((endsBehind_of_read h).of_head? hhead)

/-- The cursor behind the first `pos` tokens. -/
def cursorAt (tokens : List Token) (pos depth : ℕ) : Cursor := ⟨tokens.drop pos, depth⟩

/-- The place behind some tokens that follow another place. -/
theorem drop_add_length {tokens : List Token} {pos : ℕ} (h : tokens.drop pos = us ++ ts)
    (hne : us ≠ []) :
    pos + us.length ≤ tokens.length ∧ tokens.drop (pos + us.length) = ts ∧
      tokens.extract pos (pos + us.length) = us := by
  have hpos : 0 < us.length := List.length_pos_iff.mpr hne
  have hlength := congrArg List.length h
  rw [List.length_drop, List.length_append] at hlength
  refine ⟨by omega, ?_, ?_⟩
  · rw [← List.drop_drop, h, List.drop_left]
  · rw [List.extract_eq_take_drop, Nat.add_sub_cancel_left, h, List.take_left]

theorem drop_eq_extract_append {pos stop : ℕ} (h : pos ≤ stop) (tokens : List Token) :
    tokens.drop pos = tokens.extract pos stop ++ tokens.drop stop := by
  have hsplit := List.take_append_drop (stop - pos) (tokens.drop pos)
  rw [List.drop_drop, Nat.add_sub_cancel' h] at hsplit
  rw [List.extract_eq_take_drop, hsplit]

/-- Lists that agree up to a place have the same tokens before it, and the same one there. -/
theorem extract_eq_of_take {tokens others : List Token} {stop : ℕ}
    (h : others.take (stop + 1) = tokens.take (stop + 1)) (pos : ℕ) :
    others.extract pos stop = tokens.extract pos stop ∧
      (others.drop stop).head? = (tokens.drop stop).head? := by
  constructor
  · have hbefore := congrArg (fun xs => (xs.take stop).drop pos) h
    simp only [List.take_take, Nat.min_eq_left (Nat.le_succ stop), List.drop_take] at hbefore
    rwa [List.extract_eq_take_drop, List.extract_eq_take_drop]
  · have hthere := congrArg (fun xs => xs[stop]?) h
    simp only [List.getElem?_take_of_lt (Nat.lt_succ_self stop)] at hthere
    rwa [List.head?_drop, List.head?_drop]

/-- A reader that succeeds gives back the depth it was called with, and goes on by at least one
token and not past the end. What it takes is balanced. Behind the first token that it leaves
anything may stand: it takes the same tokens, and the value is the same. -/
theorem read_frame {tokens : List Token} {pos depth : ℕ} (hd : depth ≤ maxDepth)
    (h : read k (cursorAt tokens pos depth) = .ok (v, m)) :
    ∃ stop, pos < stop ∧ stop ≤ tokens.length ∧ m = cursorAt tokens stop depth ∧
      Balanced ((tokens.extract pos stop).map Token.symbol) ∧
      ∀ others : List Token, others.take (stop + 1) = tokens.take (stop + 1) →
        read k (cursorAt others pos depth) = .ok (v, cursorAt others stop depth) ∧
          others.extract pos stop = tokens.extract pos stop := by
  obtain ⟨us, hne, hrest, hdepth, hbalanced, hframe⟩ := exists_taken hd h
  obtain ⟨hstop, hleft, hslice⟩ := drop_add_length hrest hne
  have hpos : pos < pos + us.length := Nat.lt_add_of_pos_right (List.length_pos_iff.mpr hne)
  refine ⟨pos + us.length, hpos, hstop, ?_, ?_, ?_⟩
  · rw [cursorAt, hleft]
    exact congrArg (Cursor.mk m.rest) hdepth
  · rwa [hslice]
  · intro others hothers
    obtain ⟨hsame, hhead⟩ := extract_eq_of_take hothers pos
    refine ⟨?_, hsame⟩
    have hsplit := drop_eq_extract_append hpos.le others
    rw [hsame, hslice] at hsplit
    rw [cursorAt, hsplit]
    exact hframe _ (hleft ▸ hhead)

/-- Two groups side by side, each at the last depth that the parser allows. -/
theorem read_frame_siblings :
    let tokens : List Token := [⟨.opening, 0⟩, ⟨.opening, 1⟩, ⟨.number (.ofNat 1), 2⟩,
      ⟨.closing, 3⟩, ⟨.plus, 4⟩, ⟨.opening, 5⟩, ⟨.number (.ofNat 2), 6⟩, ⟨.closing, 7⟩,
      ⟨.closing, 8⟩, ⟨.times, 9⟩]
    let others : List Token := tokens.take 9 ++ [⟨.closing, 9⟩, ⟨.number (.ofNat 3), 10⟩]
    255 ≤ maxDepth ∧
      read .sum (cursorAt tokens 1 255) = .ok (.ofNat 3, cursorAt tokens 8 255) ∧
      Balanced ((tokens.extract 1 8).map Token.symbol) ∧
      read .sum (cursorAt others 1 255) = .ok (.ofNat 3, cursorAt others 8 255) := by
  intro tokens others
  have hd : 255 ≤ maxDepth := by decide
  have hread : read .sum (cursorAt tokens 1 255) = .ok (.ofNat 3, cursorAt tokens 8 255) := by
    decide +kernel
  obtain ⟨stop, -, hle, hm, hbalanced, hframe⟩ := read_frame hd hread
  obtain rfl : stop = 8 := by
    have hlength := congrArg (fun c => c.rest.length) hm
    simp only [cursorAt, List.length_drop] at hlength
    change stop ≤ 10 at hle
    change 10 - 8 = 10 - stop at hlength
    omega
  exact ⟨hd, hread, hbalanced, (hframe others (List.take_left' rfl)).1⟩

end Parser

end KeypadCalculator
