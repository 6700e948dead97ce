import KeypadCalculator.Proofs.Binary64.Steady
import KeypadCalculator.Proofs.Binary64.Written
import KeypadCalculator.Proofs.Calculator.Reachable

/-! Evaluating a settled result again. -/

namespace KeypadCalculator.Calculator

open Binary64

variable {p : ℕ} {c : Calculator}

/-- Evaluating a settled result gives a result, which is its value rounded a second time. -/
theorem HoldsResult.evaluate (h : HoldsResult c) : ∃ x w v : Binary64, x.isFinite = true ∧
    w.isFinite = true ∧ v.isFinite = true ∧ w.value = placesValue x.value c.precision ∧
    v.value = placesValue w.value c.precision ∧ c.buffer = .ofText w.text ∧ c.evaluate =
      (.ok (some v), { c with buffer := .ofText v.text, failure := none, mode := .settled }) := by
  obtain ⟨-, x, hx, hbuffer⟩ := h
  obtain ⟨hw, hwvalue⟩ := roundToPlaces_spec hx c.precision
  obtain ⟨u, hu, huvalue, heval⟩ := evaluate_text hw c.precision
  obtain ⟨hv, hvvalue⟩ := roundToPlaces_spec hu c.precision
  refine ⟨x, _, _, hx, hw, hv, hwvalue, huvalue ▸ hvvalue, hbuffer, ?_⟩
  have htext : c.text = (x.roundToPlaces c.precision).text := by
    rw [text, hbuffer, Buffer.text_ofText]
  simp only [Calculator.evaluate, htext, text_not_blank hw, heval]
  rfl

/-- Every result is finite. Every finite number is written as a plain decimal that passes the screen
as it is and reads back as the number. So evaluating a settled result never fails. -/
theorem result_readable :
    (∀ t p v, KeypadCalculator.evaluate t p = .ok v → v.isFinite = true) ∧
      (∀ v : Binary64, v.isFinite = true → PlainNumber v.text ∧ screen v.text = .ok v.text ∧
        ∃ w, Parser.valueOfText v.text = .ok w ∧ w.equals v = true) ∧
      ∀ p c, Reachable p c → c.mode = .settled → ∃ v, c.evaluate.1 = .ok (some v) := by
  refine ⟨fun t p v => isFinite_of_evaluate, ?_, ?_⟩
  · intro v hv
    obtain ⟨hscreen, w, hw, hvalue, hread⟩ := valueOfText_text hv
    exact ⟨plainNumber_text hv, hscreen, w, hread, (equals_iff hw hv).mpr hvalue⟩
  · intro p c h hm
    obtain ⟨_, _, v, -, -, -, -, -, -, heval⟩ := (h.holdsResult hm).evaluate
    exact ⟨v, by rw [heval]⟩

/-- A negative third is shown with its sign, and read with it. -/
theorem result_readable_negative :
    let v := -Binary64.ofDecimal 333333333333 12
    let c := ((withPrecision 12).typeText "1/-3".toList).press .evaluate
    KeypadCalculator.evaluate "1/-3".toList 12 = .ok v ∧ v.isFinite = true ∧
      v.text = "-0.333333333333".toList ∧ PlainNumber v.text ∧ screen v.text = .ok v.text ∧
      (∃ w, Parser.valueOfText v.text = .ok w ∧ w.equals v = true) ∧
      c.mode = .settled ∧ c.text = v.text ∧ ∃ u, c.evaluate.1 = .ok (some u) := by
  intro v c
  have heval : KeypadCalculator.evaluate "1/-3".toList 12 = .ok v := by decide +kernel
  have hm : c.mode = .settled := by decide +kernel
  have hreach : Reachable 12 c := (Reachable.start.typeText _).press .evaluate
  have hfinite := result_readable.1 _ _ _ heval
  obtain ⟨hplain, hscreen, hread⟩ := result_readable.2.1 v hfinite
  have hagain := result_readable.2.2 12 c hreach hm
  exact ⟨heval, hfinite, by decide +kernel, hplain, hscreen, hread, hm, by decide +kernel, hagain⟩

theorem ofText_inj {s t : Text} : Buffer.ofText s = Buffer.ofText t ↔ s = t := by
  constructor
  · intro h
    rw [← Buffer.text_ofText s, h, Buffer.text_ofText]
  · rintro rfl
    rfl

/-- Evaluating a settled result always succeeds, and changes nothing exactly when the result is
steady. All results of up to fourteen digits are. -/
theorem evaluate_settled_iff (h : Reachable p c) (hm : c.mode = .settled) :
    ∃ w : Binary64, w.isFinite = true ∧ c.text = w.text ∧
      (∃ v, c.evaluate.1 = .ok (some v)) ∧ c.evaluate.2.mode = .settled ∧
      c.evaluate.2.failure = none ∧ (c.evaluate.2 = c ↔ Steady w.value c.precision) ∧
      (|w.value| * 10 ^ c.precision ≤ 2 ^ 49 → c.evaluate.2 = c) := by
  have hholds := h.holdsResult hm
  obtain ⟨x, w, v, -, hw, hv, hwvalue, hvvalue, hbuffer, heval⟩ := hholds.evaluate
  have hstays : c.evaluate.2 = c ↔ Steady w.value c.precision := by
    rw [heval, ← placesValue_eq_iff (representable_value x) hwvalue.symm, ← hvvalue,
      ← text_eq_iff hv hw, ← ofText_inj, ← hbuffer]
    constructor
    · exact congrArg Calculator.buffer
    · intro hsame
      rw [hsame, ← hm, ← hholds.1]
  refine ⟨w, hw, ?_, ⟨v, congrArg Prod.fst heval⟩, ?_, ?_, hstays, ?_⟩
  · rw [text, hbuffer, Buffer.text_ofText]
  · rw [heval]
  · rw [heval]
  · intro hsmall
    apply hstays.mpr
    apply steady_of_small (representable_value x) hwvalue.symm
    have hscale : placesScale c.precision = 10 ^ c.precision := by
      rw [placesScale, h.precision_eq, Nat.min_assoc, Nat.min_self]
    rwa [abs_mul_placesScale, hscale]

/-- A third, settled at twelve places, is steady. -/
theorem evaluate_settled_third :
    let c := ((withPrecision 12).typeText "1/3".toList).press .evaluate
    c.mode = .settled ∧ c.text = "0.333333333333".toList ∧
      ∃ w : Binary64, c.text = w.text ∧ Steady w.value c.precision := by
  intro c
  have hm : c.mode = .settled := by decide +kernel
  have hreach : Reachable 12 c := (Reachable.start.typeText _).press .evaluate
  obtain ⟨w, -, htext, -, -, -, hstays, -⟩ := evaluate_settled_iff hreach hm
  exact ⟨hm, by decide +kernel, w, htext, hstays.mp (by decide +kernel)⟩

/-- The result of `4096.1` grows by a unit of its last place when it is evaluated again. -/
theorem evaluate_settled_drifts : ¬ ∀ (p : ℕ) (c : Calculator), Reachable p c →
    c.mode = .settled → c.evaluate.2 = c := by
  intro h
  have hreach : Reachable 12 (((withPrecision 12).typeText "4096.1".toList).press .evaluate) :=
    (Reachable.start.typeText _).press .evaluate
  exact absurd (h 12 _ hreach (by decide +kernel)) (by decide +kernel)

end KeypadCalculator.Calculator
