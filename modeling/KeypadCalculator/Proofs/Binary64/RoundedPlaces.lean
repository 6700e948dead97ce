import KeypadCalculator.Proofs.Binary64.Steady
import KeypadCalculator.Proofs.Binary64.Written

/-! Rounding to decimal places leaves no more digits behind the point than it keeps places. -/

namespace KeypadCalculator

namespace Binary64

variable {v w : Binary64} {x y : ℚ} {n : ℤ} {p places : ℕ}

/-- A number with a decimal of so many places near it is written with no more. -/
theorem fractionDigits_text_le (hw : w.isFinite = true) (hp : places ≤ 1074)
    (h : rankOf ((n : ℚ) / 10 ^ places) = rankOf w.value) : fractionDigits w.text ≤ places := by
  obtain ⟨s, i, rfl⟩ := isFinite_iff_exists.mp hw
  by_cases hi : i.val = 0
  · rw [text_of_zero hi]
    exact Nat.zero_le places
  · have hrank : rankOf ((n.natAbs : ℚ) / 10 ^ places) = i := by
      rw [Nat.cast_natAbs, Int.cast_abs, ← abs_of_pos (a := (10 : ℚ) ^ places) (by positivity),
        ← abs_div, rankOf_abs, h, rankOf_eq (abs_value s i)]
    have := neg_le_exponent_shortest .larger hi hp hrank
    rw [fractionDigits_text hi]
    omega

/-- Beyond the cut-off numbers are spaced wider than the decimal places. -/
theorem unitsPerOne_lt_gap_mul (hx : Representable x) (h : 2 ^ 53 - 1 < |x * placesScale p|) :
    (unitsPerOne : ℚ) < gap (rankOf x) * placesScale p := by
  have hS := placesScale_pos p
  have hgap : (units (rankOf x) : ℚ) + gap (rankOf x) ≤ 2 ^ 53 * gap (rankOf x) := by
    have hnat := units_succ_le (rankOf x)
    rw [units_succ] at hnat
    exact_mod_cast hnat
  rw [abs_mul_placesScale] at h
  apply lt_of_mul_lt_mul_left (a := (2 ^ 53 - 1 : ℚ)) _ (by norm_num)
  calc (2 ^ 53 - 1 : ℚ) * unitsPerOne < |x| * placesScale p * unitsPerOne :=
        mul_lt_mul_of_pos_right h unitsPerOne_pos
    _ = units (rankOf x) * placesScale p := by rw [← hx.units_rankOf]; ring
    _ ≤ (2 ^ 53 - 1) * gap (rankOf x) * placesScale p :=
        mul_le_mul_of_nonneg_right (by linarith) hS.le
    _ = (2 ^ 53 - 1) * (gap (rankOf x) * placesScale p) := mul_assoc ..

/-- So the nearest decimal with these places is rounded back, except to the end of a binade. -/
theorem rankOf_floor_div (hx : Representable x) (hr : rankOf x % binade ≠ 0)
    (h : 2 ^ 53 - 1 < |x * placesScale p|) :
    rankOf (⌊x * placesScale p + 1 / 2⌋ / placesScale p) = rankOf x := by
  have hS := placesScale_pos p
  have hU := unitsPerOne_pos
  have hgap := unitsPerOne_lt_gap_mul hx h
  have hoff : |(⌊x * placesScale p + 1 / 2⌋ : ℚ) / placesScale p - x| * placesScale p ≤ 1 / 2 := by
    rw [← abs_mul_placesScale, sub_mul, div_mul_cancel₀ _ hS.ne']
    exact abs_floor_sub_le _
  generalize (⌊x * placesScale p + 1 / 2⌋ : ℚ) / placesScale p = y at hoff ⊢
  have hnear : 2 * |(|y| * unitsPerOne - units (rankOf x))| < gap (rankOf x) := by
    rw [← hx.units_rankOf, ← sub_mul, abs_mul, abs_of_pos hU]
    apply lt_of_mul_lt_mul_right _ hS.le
    have hoff' := (mul_le_mul_of_nonneg_right (abs_abs_sub_abs_le_abs_sub y x) hS.le).trans hoff
    calc 2 * (|(|y| - |x|)| * unitsPerOne) * placesScale p
        = 2 * (|(|y| - |x|)| * placesScale p) * unitsPerOne := by ring
      _ ≤ 2 * (1 / 2) * unitsPerOne := by gcongr
      _ < gap (rankOf x) * placesScale p := by linarith
  apply (isNearest_rankOf y).unique
  exact (isNearest_iff_abs hr).mpr ⟨hnear.le, fun he => absurd he hnear.ne⟩

/-- A number that is returned unrounded is nearest to a decimal with these places. -/
theorem exists_decimal_of_large (hx : Representable x) (h : 2 ^ 53 ≤ |scaledValue x p|) :
    ∃ n : ℤ, rankOf ((n : ℚ) / placesScale p) = rankOf x := by
  obtain ⟨hfour, hscaled⟩ := scaledValue_of_cutoff hx h
  have hover : 2 ^ 53 - 1 < |x * placesScale p| := by
    by_contra hle
    rw [hscaled] at h
    exact absurd h (not_le.mpr (abs_nearest_lt_limit (not_lt.mp hle)))
  by_cases hr : rankOf x % binade = 0
  · obtain ⟨j, rfl⟩ := hx.exists_int_of_boundary hr (by linarith)
    refine ⟨j * 10 ^ min p maxPrecision, ?_⟩
    rw [Int.cast_mul, Int.cast_pow, Int.cast_ofNat, ← placesScale,
      mul_div_cancel_right₀ _ (placesScale_pos p).ne']
  · exact ⟨_, rankOf_floor_div hx hr hover⟩

/-- Rounded or not, a result is nearest to a decimal with these places. -/
theorem exists_decimal_placesValue (hx : Representable x) (p : ℕ) :
    ∃ n : ℤ, rankOf ((n : ℚ) / placesScale p) = rankOf (placesValue x p) := by
  rcases placesValue_eq_or x p with ⟨hlarge, hsame⟩ | ⟨n, -, hrounded⟩
  · rw [hsame]
    exact exists_decimal_of_large hx hlarge
  · exact ⟨n, by rw [hrounded, rankOf_nearest]⟩

theorem fractionDigits_roundToPlaces (hv : v.isFinite = true) (p : ℕ) :
    fractionDigits (v.roundToPlaces p).text ≤ min p maxPrecision := by
  obtain ⟨hfinite, hvalue⟩ := roundToPlaces_spec hv p
  obtain ⟨n, hn⟩ := exists_decimal_placesValue (representable_value v) p
  have hplaces : min p maxPrecision ≤ 1074 := (Nat.min_le_right _ _).trans (by decide)
  exact fractionDigits_text_le hfinite hplaces (hvalue ▸ hn)

end Binary64

variable {t : Text} {v : Binary64} {p : ℕ}

/-- No result shows more digits behind the point than it was to have. -/
theorem fractionDigits_result (h : evaluate t p = .ok v) :
    fractionDigits v.text ≤ min p maxPrecision := by
  obtain ⟨_, x, -, -, hfinite, rfl⟩ := evaluate_eq_ok_iff.mp h
  exact Binary64.fractionDigits_roundToPlaces hfinite p

/-- Just past the cut-off a result is not rounded, and shows all fifteen digits. -/
theorem fractionDigits_result_cutoff :
    evaluate "9.0071992547409931".toList 40 = .ok (Binary64.ofDecimal 90071992547409931 16) ∧
      (Binary64.ofDecimal 90071992547409931 16).text = "9.007199254740993".toList ∧
      fractionDigits (Binary64.ofDecimal 90071992547409931 16).text ≤ min 40 maxPrecision := by
  have h : evaluate "9.0071992547409931".toList 40 =
      .ok (Binary64.ofDecimal 90071992547409931 16) := by decide +kernel
  exact ⟨h, by decide +kernel, fractionDigits_result h⟩

end KeypadCalculator
