import KeypadCalculator.Proofs.Calculator.Reachable

/-! Text, failure and mode of a calculator agree after any keys. -/

namespace KeypadCalculator.Calculator

variable {p : ℕ} {c : Calculator}

/-- What has settled is the text of a number. What was rejected is still there, and would be
rejected again; after any other failure there is no text. -/
structure Coherent (c : Calculator) : Prop where
  settled : c.mode = .settled →
    c.failure = none ∧ ∃ w : Binary64, w.isFinite = true ∧ c.text = w.text
  rejected : ∀ why, c.failure = some (.rejected why) →
    c.mode = .editing ∧ c.text.isBlank = false ∧ screen c.text = .error why
  malformed : ∀ why, c.failure = some (.malformed why) → c.mode = .editing ∧ c.text = []
  notFinite : ∀ x, c.failure = some (.notFinite x) → c.mode = .editing ∧ c.text = []

/-- Without a failure nothing but a result needs to be looked at. -/
theorem coherent_of_no_failure (hf : c.failure = none)
    (h : c.mode = .settled → ∃ w : Binary64, w.isFinite = true ∧ c.text = w.text) :
    Coherent c := by
  refine ⟨fun hm => ⟨hf, h hm⟩, ?_, ?_, ?_⟩ <;>
  · intro _ hwhy
    rw [hf] at hwhy
    cases hwhy

theorem coherent_edit (c : Calculator) (buffer : Buffer) : Coherent (c.edit buffer) := by
  apply coherent_of_no_failure rfl
  intro hm
  cases hm

/-- A failed evaluation keeps the text just if the screen rejected it. -/
theorem coherent_failed {why : Failure} (hblank : c.text.isBlank = false)
    (h : KeypadCalculator.evaluate c.text c.precision = .error why) :
    Coherent { c with
      buffer := if why.keepsText then c.buffer else .empty, failure := some why,
      mode := .editing } := by
  constructor
  · intro hm
    cases hm
  · intro rejection hwhy
    obtain rfl := Option.some.inj hwhy
    exact ⟨rfl, hblank, evaluate_eq_rejected_iff.mp h⟩
  · intro syntaxError hwhy
    obtain rfl := Option.some.inj hwhy
    exact ⟨rfl, rfl⟩
  · intro x hwhy
    obtain rfl := Option.some.inj hwhy
    exact ⟨rfl, rfl⟩

theorem coherent_press (h : Coherent c) (a : Action) : Coherent (c.press a) := by
  cases a with
  | append typed => exact coherent_edit c _
  | erase => exact coherent_edit c _
  | clear => exact coherent_edit c _
  | evaluate =>
    rw [press]
    rcases evaluate_cases c with ⟨-, he⟩ | ⟨hblank, ⟨value, hvalue, he⟩ | ⟨why, hwhy, he⟩⟩
    · rwa [he]
    · rw [he]
      apply coherent_of_no_failure rfl
      intro _
      exact ⟨value, isFinite_of_evaluate hvalue, Buffer.text_ofText _⟩
    · rw [he]
      exact coherent_failed hblank hwhy

theorem Reachable.coherent (h : Reachable p c) : Coherent c := by
  induction h with
  | start => exact coherent_edit (withPrecision p) .empty
  | press a _ ih => exact coherent_press ih a

/-- A failure that was found is found again, or there is no text left to look at. -/
theorem Coherent.evaluate_eq (h : Coherent c) (hf : c.failure ≠ none) : c.evaluate.2 = c := by
  obtain ⟨why, hwhy⟩ := Option.ne_none_iff_exists'.mp hf
  have hempty : c.text = [] → c.evaluate.2 = c := by
    intro ht
    rw [evaluate_of_isBlank (by rw [ht]; rfl)]
  cases why with
  | rejected rejection =>
    obtain ⟨hm, hblank, hscreen⟩ := h.rejected rejection hwhy
    have hresult := evaluate_eq_rejected_iff (p := c.precision) |>.mpr hscreen
    have hagain : c.evaluate.2 =
        { c with failure := some (.rejected rejection), mode := .editing } := by
      simp only [evaluate, hblank, hresult]
      rfl
    rw [hagain, ← hwhy, ← hm]
  | malformed syntaxError => exact hempty (h.malformed syntaxError hwhy).2
  | notFinite x => exact hempty (h.notFinite x hwhy).2

/-- After any keys, and any text typed at once, the precision is what it was, text, failure and mode
agree, and a failure stays as it is when it is evaluated again. -/
theorem invariant_of_reachable (h : Reachable p c) :
    c.precision = min p maxPrecision ∧ Coherent c ∧ (c.failure ≠ none → c.evaluate.2 = c) ∧
      ∀ t, Reachable p (c.typeText t) :=
  ⟨h.precision_eq, h.coherent, h.coherent.evaluate_eq, h.typeText⟩

/-- A parenthesis that was not closed is rejected, and rejected again. -/
theorem invariant_of_reachable_unclosed :
    let c := ((withPrecision 40).typeText "2+(3".toList).press .evaluate
    c.failure = some (.rejected (.unbalanced 1 0)) ∧ c.precision = 15 ∧ Coherent c ∧
      c.evaluate.2 = c := by
  intro c
  have hreach : Reachable 40 c := (Reachable.start.typeText _).press .evaluate
  obtain ⟨hprecision, hcoherent, hagain, -⟩ := invariant_of_reachable hreach
  have hfailure : c.failure = some (.rejected (.unbalanced 1 0)) := by decide +kernel
  exact ⟨hfailure, hprecision, hcoherent, hagain (by simp [hfailure])⟩

end KeypadCalculator.Calculator
