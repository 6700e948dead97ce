import Mathlib.Logic.Relation
import KeypadCalculator.Proofs.Expression.Viable

/-! Where the parser gets to while it reads. It comes to the end with a parenthesis open just if the
text starts a sentence and has more opening than closing parentheses. -/

namespace KeypadCalculator.Parser

open Relation

/-- Something of a category is about to be read, or has just been read. -/
inductive Point where
  | before (k : Category)
  | behind (k : Category)

structure Stand where
  point : Point
  cursor : Cursor

def read : Category → Cursor → Except SyntaxError (Binary64 × Cursor)
  | .sum => readSum
  | .product => readProduct
  | .signed => readSigned
  | .operand => readOperand

/-- No other part follows in the chain. Only products and signed operands are parts of chains. -/
def EndsChain : Category → List Token → Prop
  | .product => EndsSum
  | .signed => EndsProduct
  | .sum | .operand => fun _ => True

/-- A reader calls another one, or is done, so that its text lies behind; a chain goes on with the
part behind an operator. Behind the sum of a group the parser looks for the closing parenthesis. -/
inductive Step : Stand → Stand → Prop
  | product {c} : Step ⟨.before .sum, c⟩ ⟨.before .product, c⟩
  | signed {c} : Step ⟨.before .product, c⟩ ⟨.before .signed, c⟩
  | operand {c} : Step ⟨.before .signed, c⟩
      ⟨.before .operand, ⟨(skipSigns false c.rest).2, c.depth⟩⟩
  | group {i rest d} : d < maxDepth →
      Step ⟨.before .operand, ⟨⟨.opening, i⟩ :: rest, d⟩⟩ ⟨.before .sum, ⟨rest, d + 1⟩⟩
  | done {k c v m} : read k c = .ok (v, m) → Step ⟨.before k, c⟩ ⟨.behind k, m⟩
  | next {k token rest d} : ¬ EndsChain k (token :: rest) →
      Step ⟨.behind k, ⟨token :: rest, d⟩⟩ ⟨.before k, ⟨rest, d⟩⟩

/-- The parser gets there when it reads these tokens. -/
def Visits (ts : List Token) : Stand → Prop := ReflTransGen Step ⟨.before .sum, ⟨ts, 0⟩⟩

variable {x y : Stand} {ts us rest : List Token} {k : Category} {c m : Cursor} {v w : Binary64}
  {n d : ℕ} {loop : Binary64 → Cursor → Except SyntaxError (Binary64 × Cursor)}

def Point.place : Point → ℕ → Place
  | before _ => .operand
  | behind _ => .operator

@[simp] theorem Point.place_before (k : Category) : (before k).place = .operand := rfl

@[simp] theorem Point.place_behind (k : Category) : (behind k).place = .operator := rfl

/-- What is no longer ahead leads to the place where the parser stands. -/
structure Placed (ts : List Token) (x : Stand) : Prop where
  depth_le : x.cursor.depth ≤ maxDepth
  leads : ∃ us, ts = us ++ x.cursor.rest ∧
    (Place.operand 0).after? (us.map Token.symbol) = some (x.point.place x.cursor.depth)

theorem sound_read (n : ℕ) (k : Category) : Sound n k (read k) := by
  cases k with
  | sum => exact sound_readSum n
  | product => exact sound_readProduct n
  | signed => exact sound_readSigned n
  | operand => exact sound_readOperand n

theorem exists_signs (negative : Bool) (ts : List Token) :
    ∃ us, ts = us ++ (skipSigns negative ts).2 ∧
      ∀ n, (Place.operand n).after? (us.map Token.symbol) = some (.operand n) := by
  fun_induction skipSigns negative ts with
  | case1 negative i rest ih =>
    obtain ⟨us, hus, hplace⟩ := ih
    exact ⟨⟨.minus, i⟩ :: us, by rw [List.cons_append, ← hus], hplace⟩
  | case2 negative i rest ih =>
    obtain ⟨us, hus, hplace⟩ := ih
    exact ⟨⟨.plus, i⟩ :: us, by rw [List.cons_append, ← hus], hplace⟩
  | case3 => exact ⟨[], rfl, fun _ => rfl⟩

/-- Behind a part of a chain an operator leaves an operand wanting. -/
theorem next?_of_not_endsChain {token : Token} (h : ¬ EndsChain k (token :: rest)) (n : ℕ) :
    (Place.operator n).next? token.symbol = some (.operand n) := by
  obtain ⟨s, i⟩ := token
  cases k with
  | product => cases s <;> simp_all [EndsChain, EndsSum, Place.next?]
  | signed => cases s <;> simp_all [EndsChain, EndsProduct, Place.next?]
  | sum => exact absurd trivial h
  | operand => exact absurd trivial h

theorem Placed.extend (h : Placed ts x) (us : List Token)
    (hx : x.cursor.rest = us ++ y.cursor.rest)
    (hplace : (x.point.place x.cursor.depth).after? (us.map Token.symbol) =
      some (y.point.place y.cursor.depth)) (hd : y.cursor.depth ≤ maxDepth) : Placed ts y := by
  obtain ⟨-, rs, hts, hrs⟩ := h
  refine ⟨hd, rs ++ us, by rw [hts, hx, List.append_assoc], ?_⟩
  rw [List.map_append, Place.after?_append, hrs]
  exact hplace

theorem placed_step (h : Placed ts x) (hstep : Step x y) : Placed ts y := by
  cases hstep with
  | product => exact h.extend [] rfl rfl h.depth_le
  | signed => exact h.extend [] rfl rfl h.depth_le
  | @operand c =>
    obtain ⟨us, hus, hplace⟩ := exists_signs false c.rest
    exact h.extend us hus (hplace c.depth) h.depth_le
  | @group i rest d hroom =>
    refine h.extend [⟨.opening, i⟩] rfl ?_ (Nat.succ_le_of_lt hroom)
    simp [Place.after?_cons, Place.next?, hroom]
  | @done k c v m hread =>
    obtain ⟨us, t, hus, hdepth, ht, hnest, -⟩ := sound_read _ k c m v le_rfl h.depth_le hread
    apply h.extend us hus _ (hdepth.trans_le h.depth_le)
    simp only [Point.place_before, Point.place_behind, hdepth]
    exact Place.after?_of_derives ht hnest
  | @next k token rest d hgo =>
    refine h.extend [token] rfl ?_ h.depth_le
    simp [Place.after?_cons, next?_of_not_endsChain hgo]

theorem placed_of_visits (h : Visits ts x) : Placed ts x := by
  induction h with
  | refl => exact ⟨Nat.zero_le _, [], rfl, rfl⟩
  | tail _ hstep ih => exact placed_step ih hstep

/-- At the end as many parentheses are open as were opened and not closed. -/
theorem Visits.depth_add (h : Visits ts x) (hx : x.cursor.rest = []) :
    x.cursor.depth + (ts.map Token.symbol).count .closing =
      (ts.map Token.symbol).count .opening := by
  obtain ⟨-, us, hts, hplace⟩ := placed_of_visits h
  rw [hx, List.append_nil] at hts
  obtain rfl := hts
  have hopened := after?_opened hplace
  rw [Place.opened_operand, Nat.zero_add] at hopened
  rw [← hopened]
  cases x.point <;> rfl

/-- From here the parser gets to the end, while it wants an operand or a parenthesis is open. -/
def EndsEarly (x : Stand) : Prop :=
  ∃ y, ReflTransGen Step x y ∧ y.cursor.rest = [] ∧
    (y.point = .before .operand ∨ y.point = .behind .sum ∧ 0 < y.cursor.depth)

theorem EndsEarly.of_step (hstep : Step x y) (h : EndsEarly y) : EndsEarly x := by
  obtain ⟨z, hz, hend⟩ := h
  exact ⟨z, .head hstep hz, hend⟩

/-- Where a reader misses the rest of its text, the parser has come to the end. -/
def Explains (n : ℕ) (k : Category) : Prop :=
  ∀ c, c.rest.length < n → c.depth ≤ maxDepth → read k c = .error .unexpectedEnd →
    EndsEarly ⟨.before k, c⟩

theorem explains_operand (ih : Explains n .sum) : Explains (n + 1) .operand := by
  intro ⟨rest, d⟩ hn hd h
  match rest with
  | [] => exact ⟨_, .refl, rfl, Or.inl rfl⟩
  | ⟨.opening, i⟩ :: rest =>
    simp only [read, readOperand_opening] at h
    split at h
    · cases h
    · next hroom =>
      have hdepth : d + 1 ≤ maxDepth := Nat.not_lt.mp hroom
      have hlen : rest.length < n := Nat.lt_of_succ_lt_succ hn
      apply EndsEarly.of_step (.group hdepth)
      rcases bind_eq_error h with hsum | ⟨⟨v, m⟩, hsum, hclose⟩
      · exact ih ⟨rest, d + 1⟩ hlen hdepth hsum
      · have hm := sound_read _ .sum ⟨rest, d + 1⟩ m v le_rfl hdepth hsum
        have hopen : 0 < m.depth := by simp [hm.depth_eq]
        have hend : m.rest = [] := by
          rw [readClosing] at hclose
          split at hclose
          · next he => exact he
          · cases hclose
          · cases hclose
        exact ⟨⟨.behind .sum, m⟩, .single (.done hsum), hend, Or.inr ⟨rfl, hopen⟩⟩
  | ⟨.number w, i⟩ :: rest =>
    simp only [read, readOperand_number] at h
    cases h
  | ⟨.times, _⟩ :: _ | ⟨.divide, _⟩ :: _ | ⟨.closing, _⟩ :: _ | ⟨.plus, _⟩ :: _
  | ⟨.minus, _⟩ :: _ =>
    simp only [read] at h
    rw [readOperand_unexpected (by simp [StartsOperand])] at h
    cases h

theorem explains_signed (ih : Explains n .operand) : Explains n .signed := by
  intro c hn hd h
  simp only [read, readSigned_eq] at h
  have hshort := skipSigns_length_le false c.rest
  rcases bind_eq_error h with h | ⟨p, -, h⟩
  · exact EndsEarly.of_step .operand (ih _ (Nat.lt_of_le_of_lt hshort hn) hd h)
  · cases h

/-- A chain comes to the end where one of its parts does. -/
theorem endsEarly_loop (hrounds : Rounds (EndsChain k) (read k) loop)
    (hstop : ∀ v c, EndsChain k c.rest → loop v c = .ok (v, c)) (ih : Explains n k)
    (hn : c.rest.length < n) (hd : c.depth ≤ maxDepth) (h : loop v c = .error .unexpectedEnd) :
    EndsEarly ⟨.behind k, c⟩ := by
  induction hlen : c.rest.length using Nat.strongRecOn generalizing c v with
  | ind r ihr =>
    have hgo : ¬ EndsChain k c.rest := by
      intro hends
      rw [hstop v c hends] at h
      cases h
    rcases hrounds v c with ⟨hends, -⟩ | ⟨s, op, i, rest, -, hrest, heq⟩
    · exact absurd hends hgo
    · obtain ⟨_, d⟩ := c
      obtain rfl := hrest
      have hshort : rest.length < r := by simp [← hlen]
      rw [heq] at h
      apply EndsEarly.of_step (.next hgo)
      rcases bind_eq_error h with hread | ⟨⟨w, m⟩, hread, hnext⟩
      · exact ih ⟨rest, d⟩ (by simp only; omega) hd hread
      · have hm := sound_read _ k ⟨rest, d⟩ m w le_rfl hd hread
        have hlt := hm.length_lt
        have hdm := hm.depth_le
        simp only at hlt
        apply EndsEarly.of_step (.done hread)
        exact ihr m.rest.length (by omega) (by omega) hdm hnext rfl

theorem explains_product (ih : Explains n .signed) : Explains n .product := by
  intro c hn hd h
  simp only [read, readProduct_eq] at h
  apply EndsEarly.of_step .signed
  rcases bind_eq_error h with h | ⟨⟨v, m⟩, hread, h⟩
  · exact ih c hn hd h
  · have hm := sound_readSigned _ c m v le_rfl hd hread
    apply EndsEarly.of_step (.done (k := .signed) hread)
    exact endsEarly_loop rounds_factors (fun _ _ hends => readFactors_end hends) ih
      (hm.length_lt.trans hn) hm.depth_le h

theorem explains_sum (ih : Explains n .product) : Explains n .sum := by
  intro c hn hd h
  simp only [read, readSum_eq] at h
  apply EndsEarly.of_step .product
  rcases bind_eq_error h with h | ⟨⟨v, m⟩, hread, h⟩
  · exact ih c hn hd h
  · have hm := sound_readProduct _ c m v le_rfl hd hread
    apply EndsEarly.of_step (.done (k := .product) hread)
    exact endsEarly_loop rounds_terms (fun _ _ hends => readTerms_end hends) ih
      (hm.length_lt.trans hn) hm.depth_le h

theorem explains (n : ℕ) : Explains n .sum := by
  induction n with
  | zero =>
    intro c hn
    exact absurd hn (Nat.not_lt_zero _)
  | succ n ih => exact explains_sum (explains_product (explains_signed (explains_operand ih)))

/-- The parser misses the rest of a text only at its end. -/
theorem endsEarly_of_value (h : value ts = .error .unexpectedEnd) :
    EndsEarly ⟨.before .sum, ⟨ts, 0⟩⟩ := by
  rw [value_eq] at h
  rcases bind_eq_error h with h | ⟨⟨v, m⟩, -, hend⟩
  · exact explains _ ⟨ts, 0⟩ (Nat.lt_succ_self _) (Nat.zero_le _) h
  · match hrest : m.rest with
    | [] =>
      simp only [hrest] at hend
      cases hend
    | token :: rest =>
      simp only [hrest] at hend
      cases hend

theorem eq_unexpectedEnd_of_viable {e : SyntaxError} (h : value ts = .error e)
    (hts : Viable (ts.map Token.symbol)) : e = .unexpectedEnd := by
  rcases (strays_of_value h).cases_place with ⟨he, -⟩ | ⟨i, hi, q, hq, hnext, -⟩
  · exact he
  · rw [← ts.take_length] at hts
    exact absurd (hts.of_take hi) (not_viable_take_succ hi hq hnext)

/-- The parser comes to the end with a parenthesis open just if a sentence starts like this and has
yet to close one. -/
theorem visits_end_open_iff :
    (∃ x, Visits ts x ∧ x.cursor.rest = [] ∧ 0 < x.cursor.depth) ↔
      Viable (ts.map Token.symbol) ∧
        (ts.map Token.symbol).count .closing < (ts.map Token.symbol).count .opening := by
  constructor
  · rintro ⟨x, hvisits, hx, hopen⟩
    have hdepth := hvisits.depth_add hx
    obtain ⟨-, us, hts, hplace⟩ := placed_of_visits hvisits
    rw [hx, List.append_nil] at hts
    obtain rfl := hts
    exact ⟨viable_iff.mpr ⟨_, hplace⟩, by omega⟩
  · rintro ⟨hviable, hcount⟩
    cases hvalue : value ts with
    | ok v =>
      obtain ⟨t, ht, -, -⟩ := value_eq_ok_iff.mp hvalue
      exact absurd ht.count_eq hcount.ne'
    | error e =>
      obtain rfl := eq_unexpectedEnd_of_viable hvalue hviable
      obtain ⟨x, hvisits, hx, -⟩ := endsEarly_of_value hvalue
      have hdepth := Visits.depth_add hvisits hx
      exact ⟨x, hvisits, hx, by omega⟩

end KeypadCalculator.Parser
