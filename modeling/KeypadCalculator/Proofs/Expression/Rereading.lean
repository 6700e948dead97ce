import KeypadCalculator.Proofs.Binary64.Coarsest
import KeypadCalculator.Proofs.Binary64.Places
import KeypadCalculator.Proofs.Expression.Screening

/-! The text of a finite number is an expression for it. -/

namespace KeypadCalculator

open Binary64

variable {t : Text} {v w : Binary64} {s : Bool} {i : Fin finiteRanks} {p : ℕ}

/-- A text is written in symbols that have the value of a number. Of two zeros it may be either. -/
def Denotes (t : Text) (w : Binary64) : Prop :=
  ∃ ss tree, Scans t ss ∧ Derives .sum ss tree ∧ tree.nesting = 0 ∧ tree.eval.isFinite = true ∧
    tree.eval.value = w.value

theorem derives_number (x : Binary64) : Derives .signed [.number x] (.number x) :=
  .operand (.number x)

theorem text_of_zero (h : i.val = 0) : text (finite s i) = ['0'] := by
  rw [text, if_pos h]

theorem text_of_ne_zero (h : i.val ≠ 0) : text (finite s i) =
    if s then '-' :: (shortest .larger i).positional else (shortest .larger i).positional := by
  unfold text
  simp only [h, if_false]

theorem LiteralFor.exists_scans {l : Text} {x : ℚ} (h : LiteralFor l x) :
    ∃ v, RoundsTo x v ∧ Scans l [.number v] := by
  obtain ⟨v, hl, hv, hx⟩ := h.reads (t := []) (by simp)
  have hscans := Scans.number hl hv .nil
  rw [List.append_nil] at hscans
  exact ⟨v, hx, hscans⟩

/-- The digits of a number scan as its magnitude. -/
theorem exists_scans_digits (hi : i.val ≠ 0) : ∃ x : Binary64, x.isFinite = true ∧
    x.value = magnitude i ∧ Scans (shortest .larger i).positional [.number x] := by
  obtain ⟨x, hx, hscans⟩ := (Decimal.literalFor_positional (shortest .larger i)).exists_scans
  have hrank := rankOf_shortest .larger hi
  have hfinite : x.isFinite = true := hx.isFinite_iff.mpr (hrank.trans_lt i.isLt)
  refine ⟨x, hfinite, ?_, hscans⟩
  rw [hx.value_eq hfinite, nearest_of_nonneg (value_nonneg _), hrank]

/-- So does the only digit of a zero. -/
theorem exists_scans_zero : ∃ x : Binary64, x.isFinite = true ∧ x.value = 0 ∧
    Scans ['0'] [.number x] := by
  obtain ⟨x, hx, hscans⟩ := literalFor_zero.exists_scans
  have hfinite : x.isFinite = true := hx.isFinite (by norm_num)
  exact ⟨x, hfinite, (hx.value_eq hfinite).trans nearest_zero, hscans⟩

theorem denotes_text (hw : w.isFinite = true) : Denotes w.text w := by
  obtain ⟨s, i, rfl⟩ := isFinite_iff_exists.mp hw
  by_cases hi : i.val = 0
  · obtain ⟨x, hfinite, hvalue, hscans⟩ := exists_scans_zero
    have hzero : value (finite s i) = 0 := by
      rw [← abs_eq_zero, abs_value, hi, magnitude_zero]
    rw [text_of_zero hi]
    exact ⟨_, _, hscans, .product (.signed (derives_number x)), rfl, hfinite,
      hvalue.trans hzero.symm⟩
  obtain ⟨x, hfinite, hvalue, hscans⟩ := exists_scans_digits hi
  rw [text_of_ne_zero hi]
  cases s with
  | false =>
    have hpositive : value (finite false i) = magnitude i := by simp [value]
    rw [if_neg Bool.false_ne_true]
    exact ⟨_, _, hscans, .product (.signed (derives_number x)), rfl, hfinite,
      hvalue.trans hpositive.symm⟩
  | true =>
    have hnegative : value (finite true i) = -magnitude i := by simp [value]
    rw [if_pos rfl]
    refine ⟨_, _, .symbol rfl hscans, .product (.signed (.negative (derives_number x))), rfl,
      ?_, ?_⟩
    · exact (isFinite_neg x).trans hfinite
    · rw [hnegative, ← hvalue]
      exact value_neg x

/-- Both zeros are written alike, and so are no other two numbers. -/
theorem text_eq_iff (hv : v.isFinite = true) (hw : w.isFinite = true) :
    v.text = w.text ↔ v.value = w.value := by
  constructor
  · intro h
    obtain ⟨ss, tree, hscans, htree, hnest, -, hvalue⟩ := denotes_text hv
    obtain ⟨ss', tree', hscans', htree', hnest', -, hvalue'⟩ := denotes_text hw
    have hread := (valueOfText_of_scans hscans).mpr
      ⟨tree, htree, hnest.trans_le (Nat.zero_le _), rfl⟩
    have hread' := (valueOfText_of_scans hscans').mpr
      ⟨tree', htree', hnest'.trans_le (Nat.zero_le _), rfl⟩
    rw [h, hread'] at hread
    rw [← hvalue, ← hvalue', Except.ok.inj hread]
  · intro h
    obtain ⟨s, i, rfl⟩ := isFinite_iff_exists.mp hv
    obtain ⟨t, j, rfl⟩ := isFinite_iff_exists.mp hw
    obtain ⟨rfl, rfl | hzero⟩ := eq_of_value_eq h
    · rfl
    · rw [text_of_zero hzero, text_of_zero hzero]

theorem text_not_blank (hw : w.isFinite = true) : w.text.isBlank = false := by
  obtain ⟨ss, tree, hscans, htree, -⟩ := denotes_text hw
  rw [← Bool.not_eq_true]
  intro hblank
  exact htree.ne_nil (eq_nil_of_isBlank hscans hblank)

/-- The text of a number passes the screen as it is, and reads back as the number up to the sign of
a zero. -/
theorem valueOfText_text (hw : w.isFinite = true) : screen w.text = .ok w.text ∧
    ∃ u : Binary64, u.isFinite = true ∧ u.value = w.value ∧ Parser.valueOfText w.text = .ok u := by
  obtain ⟨ss, tree, hscans, htree, hnest, hfinite, hvalue⟩ := denotes_text hw
  refine ⟨?_, tree.eval, hfinite, hvalue, ?_⟩
  · rw [screen_of_scans hscans, if_pos htree.count_eq]
  · exact (valueOfText_of_scans hscans).mpr ⟨tree, htree, hnest.trans_le (Nat.zero_le _), rfl⟩

/-- What is not finite has no result, and rounding does not leave the finite numbers. -/
theorem isFinite_of_evaluate (h : evaluate t p = .ok v) : v.isFinite = true := by
  obtain ⟨_, x, -, -, hx, rfl⟩ := evaluate_eq_ok_iff.mp h
  exact (roundToPlaces_spec hx p).1

/-- Evaluating the text of a number rounds the number, up to the sign of a zero. -/
theorem evaluate_text (hw : w.isFinite = true) (p : ℕ) : ∃ u : Binary64, u.isFinite = true ∧
    u.value = w.value ∧ evaluate w.text p = .ok (u.roundToPlaces p) := by
  obtain ⟨hscreen, u, hfinite, hvalue, hread⟩ := valueOfText_text hw
  exact ⟨u, hfinite, hvalue, evaluate_eq_ok_iff.mpr ⟨w.text, u, hscreen, hread, hfinite, rfl⟩⟩

end KeypadCalculator
