import KeypadCalculator.Calculator
import KeypadCalculator.Proofs.Expression.Rereading

/-! The states that key presses lead to, and what holds in all of them. -/

namespace KeypadCalculator.Calculator

/-- The states of a calculator with the given precision, from an empty one on. -/
inductive Reachable (p : ℕ) : Calculator → Prop
  | start : Reachable p (withPrecision p)
  | press {c} (a : Action) : Reachable p c → Reachable p (c.press a)

variable {p : ℕ} {c : Calculator}

theorem Reachable.typeText (h : Reachable p c) (t : Text) : Reachable p (c.typeText t) := by
  induction t generalizing c with
  | nil => exact h
  | cons typed t ih => exact ih (h.press (.append typed))

theorem evaluate_of_isBlank (h : c.text.isBlank = true) : c.evaluate = (.ok none, c) := if_pos h

/-- Evaluation finds nothing in a blank text; in any other it settles a result or fails. -/
theorem evaluate_cases (c : Calculator) :
    (c.text.isBlank = true ∧ c.evaluate = (.ok none, c)) ∨
      (c.text.isBlank = false ∧
        ((∃ value, KeypadCalculator.evaluate c.text c.precision = .ok value ∧ c.evaluate =
          (.ok (some value),
            { c with buffer := .ofText value.text, failure := none, mode := .settled })) ∨
        ∃ why, KeypadCalculator.evaluate c.text c.precision = .error why ∧ c.evaluate =
          (.error why,
            { c with
              buffer := if why.keepsText then c.buffer else .empty, failure := some why,
              mode := .editing }))) := by
  cases hblank : c.text.isBlank with
  | true => exact Or.inl ⟨rfl, evaluate_of_isBlank hblank⟩
  | false =>
    refine Or.inr ⟨rfl, ?_⟩
    simp only [evaluate, hblank]
    cases KeypadCalculator.evaluate c.text c.precision with
    | ok value => exact Or.inl ⟨value, rfl, rfl⟩
    | error why => exact Or.inr ⟨why, rfl, rfl⟩

/-- A key does one of four things: it edits, finds nothing to evaluate, settles or fails. -/
theorem press_cases (c : Calculator) (a : Action) :
    (∃ buffer, c.press a = c.edit buffer) ∨ c.press a = c ∨
      (∃ value, KeypadCalculator.evaluate c.text c.precision = .ok value ∧ c.press a =
        { c with buffer := .ofText value.text, failure := none, mode := .settled }) ∨
      ∃ why, KeypadCalculator.evaluate c.text c.precision = .error why ∧ c.press a =
        { c with
          buffer := if why.keepsText then c.buffer else .empty, failure := some why,
          mode := .editing } := by
  cases a with
  | append typed => exact Or.inl ⟨_, rfl⟩
  | erase => exact Or.inl ⟨_, rfl⟩
  | clear => exact Or.inl ⟨_, rfl⟩
  | evaluate =>
    right
    rcases evaluate_cases c with ⟨-, he⟩ | ⟨-, ⟨value, h, he⟩ | ⟨why, h, he⟩⟩
    · exact Or.inl (congrArg Prod.snd he)
    · exact Or.inr (Or.inl ⟨value, h, congrArg Prod.snd he⟩)
    · exact Or.inr (Or.inr ⟨why, h, congrArg Prod.snd he⟩)

theorem Reachable.precision_eq (h : Reachable p c) : c.precision = min p maxPrecision := by
  induction h with
  | start => rfl
  | @press c a _ ih =>
    rcases press_cases c a with ⟨_, he⟩ | he | ⟨_, -, he⟩ | ⟨_, -, he⟩ <;> rw [he] <;> exact ih

/-- Where a result has settled, it stands in the buffer, rounded, and nothing has failed. -/
def HoldsResult (c : Calculator) : Prop :=
  c.failure = none ∧ ∃ x : Binary64, x.isFinite = true ∧
    c.buffer = .ofText (x.roundToPlaces c.precision).text

theorem holdsResult_press (h : c.mode = .settled → HoldsResult c) (a : Action)
    (hm : (c.press a).mode = .settled) : HoldsResult (c.press a) := by
  rcases press_cases c a with ⟨_, he⟩ | he | ⟨value, hvalue, he⟩ | ⟨_, -, he⟩ <;> rw [he] at hm ⊢
  · cases hm
  · exact h hm
  · obtain ⟨_, x, -, -, hfinite, rfl⟩ := evaluate_eq_ok_iff.mp hvalue
    exact ⟨rfl, x, hfinite, rfl⟩
  · cases hm

theorem Reachable.holdsResult (h : Reachable p c) (hm : c.mode = .settled) : HoldsResult c := by
  induction h with
  | start => cases hm
  | press a _ ih => exact holdsResult_press ih a hm

end KeypadCalculator.Calculator
