import KeypadCalculator.Proofs.Calculator.Reachable

/-! Failure and mode are only shown. What a calculator does depends on its text and precision. -/

namespace KeypadCalculator.Calculator

variable {c k : Calculator} {a : Action} {actions : List Action}

/-- Two calculators that differ at most in what has failed and in their mode. -/
structure Alike (c k : Calculator) : Prop where
  buffer_eq : c.buffer = k.buffer
  precision_eq : c.precision = k.precision

/-- The action writes failure and mode anew: it edits, or it evaluates a text that is not blank. -/
def Overwrites (c : Calculator) (a : Action) : Prop := a = .evaluate → c.text.isBlank = false

/-- One of some actions writes failure and mode when its turn comes. -/
def Overwritten (c : Calculator) (actions : List Action) : Prop :=
  ∃ done a left, actions = done ++ a :: left ∧ Overwrites (done.foldl press c) a

/-- What the evaluations among some actions answer, in their order. -/
def answers : Calculator → List Action → List (Except Failure (Option Binary64))
  | _, [] => []
  | c, .evaluate :: actions => c.evaluate.1 :: answers c.evaluate.2 actions
  | c, a :: actions => answers (c.press a) actions

theorem Alike.refl (c : Calculator) : Alike c c := ⟨rfl, rfl⟩

theorem Alike.text_eq (h : Alike c k) : c.text = k.text := congrArg Buffer.text h.buffer_eq

theorem Alike.edit_eq (h : Alike c k) (buffer : Buffer) : c.edit buffer = k.edit buffer := by
  simp only [edit, h.precision_eq]

/-- Where there is something to evaluate, evaluation reads neither field and writes both. -/
theorem Alike.evaluate_eq (h : Alike c k) (hblank : c.text.isBlank = false) :
    c.evaluate = k.evaluate := by
  rw [evaluate, evaluate, ← h.text_eq, ← h.precision_eq, ← h.buffer_eq]
  simp only [hblank]
  rfl

theorem Alike.answer_eq (h : Alike c k) : c.evaluate.1 = k.evaluate.1 := by
  cases hblank : c.text.isBlank with
  | true => rw [evaluate_of_isBlank hblank, evaluate_of_isBlank (h.text_eq ▸ hblank)]
  | false => rw [h.evaluate_eq hblank]

theorem Alike.press_eq (h : Alike c k) (ha : Overwrites c a) : c.press a = k.press a := by
  cases a with
  | append typed =>
    simp only [press, append, h.buffer_eq]
    exact h.edit_eq _
  | erase =>
    simp only [press, erase, h.buffer_eq]
    exact h.edit_eq _
  | clear => exact h.edit_eq .empty
  | evaluate => exact congrArg Prod.snd (h.evaluate_eq (ha rfl))

theorem press_of_not_overwrites (h : ¬ Overwrites c a) : c.press a = c := by
  simp only [Overwrites, Classical.not_imp, Bool.not_eq_false] at h
  obtain ⟨rfl, hblank⟩ := h
  exact congrArg Prod.snd (evaluate_of_isBlank hblank)

theorem Alike.overwrites_iff (h : Alike c k) : Overwrites c a ↔ Overwrites k a := by
  rw [Overwrites, Overwrites, h.text_eq]

theorem alike_press (h : Alike c k) (a : Action) : Alike (c.press a) (k.press a) := by
  by_cases ha : Overwrites c a
  · rw [h.press_eq ha]
    exact .refl _
  · rwa [press_of_not_overwrites ha, press_of_not_overwrites (h.overwrites_iff.not.mp ha)]

/-- A rejected text is still there, so that only failure and mode tell of its rejection. -/
theorem alike_of_rejected {why : Rejection} (h : c.evaluate.1 = .error (.rejected why)) :
    Alike c.evaluate.2 c := by
  rcases evaluate_cases c with ⟨-, he⟩ | ⟨-, ⟨value, -, he⟩ | ⟨other, -, he⟩⟩ <;> rw [he] at h ⊢
  · cases h
  · cases h
  · cases h
    exact ⟨rfl, rfl⟩

theorem alike_foldl (h : Alike c k) (actions : List Action) :
    Alike (actions.foldl press c) (actions.foldl press k) := by
  induction actions generalizing c k with
  | nil => exact h
  | cons a actions ih => exact ih (alike_press h a)

theorem Alike.answers_eq (h : Alike c k) (actions : List Action) :
    answers c actions = answers k actions := by
  induction actions generalizing c k with
  | nil => rfl
  | cons a actions ih =>
    have hrest := ih (alike_press h a)
    cases a with
    | append typed => exact hrest
    | erase => exact hrest
    | clear => exact hrest
    | evaluate =>
      rw [answers, answers, h.answer_eq]
      exact congrArg _ hrest

theorem Alike.overwritten_iff (h : Alike c k) : Overwritten c actions ↔ Overwritten k actions := by
  simp only [Overwritten, (alike_foldl h _).overwrites_iff]

/-- The first action that writes both fields leaves no difference to carry on. -/
theorem Alike.foldl_eq (h : Alike c k) (ha : Overwritten c actions) :
    actions.foldl press c = actions.foldl press k := by
  obtain ⟨done, a, left, rfl, ha⟩ := ha
  rw [List.foldl_append, List.foldl_append, List.foldl_cons, List.foldl_cons,
    (alike_foldl h done).press_eq ha]

/-- Without such an action nothing changes at all. -/
theorem foldl_of_not_overwritten (h : ¬ Overwritten c actions) : actions.foldl press c = c := by
  induction actions with
  | nil => rfl
  | cons a actions ih =>
    have hfirst : c.press a = c := by
      apply press_of_not_overwrites
      intro ha
      exact h ⟨[], a, actions, rfl, ha⟩
    rw [List.foldl_cons, hfirst]
    apply ih
    rintro ⟨done, b, left, rfl, hb⟩
    exact h ⟨a :: done, b, left, rfl, by rwa [List.foldl_cons, hfirst]⟩

/-- Calculators that are alike stay so and answer alike, whatever is pressed. They are the same from
the first action on that writes failure and mode, and not before. An edit leaves no trace of a
rejection. -/
theorem run_of_alike (h : Alike c k) (actions : List Action) :
    Alike (actions.foldl press c) (actions.foldl press k) ∧
      answers c actions = answers k actions ∧
      (actions.foldl press c = actions.foldl press k ↔ c = k ∨ Overwritten c actions) ∧
      ∀ why a, c.evaluate.1 = .error (.rejected why) → a ≠ .evaluate →
        c.evaluate.2.press a = c.press a := by
  refine ⟨alike_foldl h actions, h.answers_eq actions, ⟨?_, ?_⟩, ?_⟩
  · intro hsame
    by_cases hc : Overwritten c actions
    · exact Or.inr hc
    · rw [foldl_of_not_overwritten hc,
        foldl_of_not_overwritten (h.overwritten_iff.not.mp hc)] at hsame
      exact Or.inl hsame
  · rintro (rfl | hc)
    · rfl
    · exact h.foldl_eq hc
  · intro why a hwhy ha
    exact (alike_of_rejected hwhy).press_eq fun he => absurd he ha

/-- One calculator has rejected its text, the other has only been typed into. The parenthesis that
was missing makes them the same. -/
theorem run_of_alike_rejected :
    let k := (withPrecision 12).typeText "2+(3".toList
    let c := k.press .evaluate
    let actions : List Action := [.append ')', .evaluate]
    c ≠ k ∧ Alike c k ∧ answers c actions = answers k actions ∧
      actions.foldl press c = actions.foldl press k ∧
      c.evaluate.1 = .error (.rejected (.unbalanced 1 0)) ∧
      c.evaluate.2.press (.append ')') = c.press (.append ')') := by
  intro k c actions
  have halike : Alike c k := ⟨by decide +kernel, rfl⟩
  have hwhy : c.evaluate.1 = .error (.rejected (.unbalanced 1 0)) := by decide +kernel
  obtain ⟨-, hanswers, hsame, hedit⟩ := run_of_alike halike actions
  have hwritten : Overwritten c actions := ⟨[], .append ')', [.evaluate], rfl, by simp [Overwrites]⟩
  exact ⟨by decide +kernel, halike, hanswers, hsame.mpr (Or.inr hwritten), hwhy,
    hedit _ _ hwhy (by decide)⟩

end KeypadCalculator.Calculator
