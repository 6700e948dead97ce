import Mathlib.Data.List.Chain
import KeypadCalculator.Expression.Parser

/-! The grammar of arithmetic, the syntax trees of its sentences and their values. -/

namespace KeypadCalculator

/-- The syntax tree of an expression. A plus sign leaves no trace in it. -/
inductive Tree where
  | number (value : Binary64)
  | group (inner : Tree)
  | negative (operand : Tree)
  | add (left right : Tree)
  | subtract (left right : Tree)
  | multiply (left right : Tree)
  | divide (left right : Tree)
  deriving DecidableEq

namespace Tree

/-- The value of a tree, computed from its leaves up. -/
def eval : Tree → Binary64
  | number value => value
  | group inner => inner.eval
  | negative operand => -operand.eval
  | add left right => left.eval + right.eval
  | subtract left right => left.eval - right.eval
  | multiply left right => left.eval * right.eval
  | divide left right => left.eval / right.eval

/-- How deep parentheses are nested. -/
def nesting : Tree → Nat
  | number _ => 0
  | group inner => inner.nesting + 1
  | negative operand => operand.nesting
  | add left right | subtract left right | multiply left right | divide left right =>
    max left.nesting right.nesting

end Tree

inductive Category where
  | sum
  | product
  | signed
  | operand

/-- What the symbols of a category mean. A chain of operators of one rank grows to the right, so
that its left part is the left operand of the last operator:

    sum     := product (('+' | '-') product)*
    product := signed (('*' | '/') signed)*
    signed  := ('+' | '-')* operand
    operand := number | '(' sum ')'
-/
inductive Derives : Category → List Symbol → Tree → Prop
  | product {ts t} : Derives .product ts t → Derives .sum ts t
  | plus {ts us l r} : Derives .sum ts l → Derives .product us r →
      Derives .sum (ts ++ .plus :: us) (.add l r)
  | minus {ts us l r} : Derives .sum ts l → Derives .product us r →
      Derives .sum (ts ++ .minus :: us) (.subtract l r)
  | signed {ts t} : Derives .signed ts t → Derives .product ts t
  | times {ts us l r} : Derives .product ts l → Derives .signed us r →
      Derives .product (ts ++ .times :: us) (.multiply l r)
  | divide {ts us l r} : Derives .product ts l → Derives .signed us r →
      Derives .product (ts ++ .divide :: us) (.divide l r)
  | operand {ts t} : Derives .operand ts t → Derives .signed ts t
  | positive {ts t} : Derives .signed ts t → Derives .signed (.plus :: ts) t
  | negative {ts t} : Derives .signed ts t → Derives .signed (.minus :: ts) (.negative t)
  | number (v) : Derives .operand [.number v] (.number v)
  | group {ts t} : Derives .sum ts t → Derives .operand (.opening :: ts ++ [.closing]) (.group t)

/-- With `s` between them, a `k` and a `j` make a longer `k`, whose value is that of `op`. -/
def Chains (k j : Category) (s : Symbol) (op : Binary64 → Binary64 → Binary64) : Prop :=
  ∃ node : Tree → Tree → Tree,
    (∀ ts us l r, Derives k ts l → Derives j us r → Derives k (ts ++ s :: us) (node l r)) ∧
    (∀ l r, (node l r).nesting = max l.nesting r.nesting) ∧
    ∀ l r, (node l r).eval = op l.eval r.eval

theorem chains_plus : Chains .sum .product .plus (· + ·) :=
  ⟨.add, fun _ _ _ _ => .plus, fun _ _ => rfl, fun _ _ => rfl⟩

theorem chains_minus : Chains .sum .product .minus (· - ·) :=
  ⟨.subtract, fun _ _ _ _ => .minus, fun _ _ => rfl, fun _ _ => rfl⟩

theorem chains_times : Chains .product .signed .times (· * ·) :=
  ⟨.multiply, fun _ _ _ _ => .times, fun _ _ => rfl, fun _ _ => rfl⟩

theorem chains_divide : Chains .product .signed .divide (· / ·) :=
  ⟨.divide, fun _ _ _ _ => .divide, fun _ _ => rfl, fun _ _ => rfl⟩

theorem Derives.ne_nil {k : Category} {ts : List Symbol} {t : Tree} (h : Derives k ts t) :
    ts ≠ [] := by
  induction h <;> simp_all

/-- Parentheses balance in every sentence. -/
theorem Derives.count_eq {k : Category} {ts : List Symbol} {t : Tree} (h : Derives k ts t) :
    ts.count .opening = ts.count .closing := by
  induction h <;> simp_all [List.count_append]

def Symbol.IsNumber (s : Symbol) : Prop := ∃ v, s = .number v

/-- Two symbols that are not both numbers. -/
def Apart (a b : Symbol) : Prop := ¬ (a.IsNumber ∧ b.IsNumber)

theorem apart_chain {ts us : List Symbol} {s : Symbol} (hs : ¬ s.IsNumber)
    (hts : ts.IsChain Apart) (hus : us.IsChain Apart) : (ts ++ s :: us).IsChain Apart := by
  have hcons : (s :: us).IsChain Apart := List.isChain_cons.mpr ⟨fun _ _ h => hs h.1, hus⟩
  apply List.isChain_append.mpr
  refine ⟨hts, hcons, ?_⟩
  intro a _ b hb h
  obtain rfl : s = b := by simpa using hb
  exact hs h.2

/-- A sentence of the grammar never has two numbers side by side. -/
theorem Derives.apart {k : Category} {ts : List Symbol} {t : Tree} (h : Derives k ts t) :
    ts.IsChain Apart := by
  induction h with
  | product _ ih | signed _ ih | operand _ ih => exact ih
  | plus _ _ ihl ihr | minus _ _ ihl ihr | times _ _ ihl ihr | divide _ _ ihl ihr =>
    exact apart_chain (by simp [Symbol.IsNumber]) ihl ihr
  | positive _ ih | negative _ ih =>
    exact List.isChain_cons.mpr ⟨fun _ _ h => absurd h.1 (by simp [Symbol.IsNumber]), ih⟩
  | number v => exact .singleton _
  | group _ ih =>
    have hclosed := apart_chain (s := .closing) (by simp [Symbol.IsNumber]) ih .nil
    exact List.isChain_cons.mpr ⟨fun _ _ h => absurd h.1 (by simp [Symbol.IsNumber]), hclosed⟩

end KeypadCalculator
