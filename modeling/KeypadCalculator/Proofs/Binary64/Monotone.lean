import KeypadCalculator.Proofs.Binary64.Steady

/-! Rounding to decimal places keeps numbers in their order, also across the cut-off beyond which
they stay as they are. -/

namespace KeypadCalculator.Binary64

variable {v w : Binary64} {x y : ℚ} {p : ℕ}

theorem scaledValue_mono (h : x ≤ y) (p : ℕ) : scaledValue x p ≤ scaledValue y p := by
  have hnudged : nearest (x + 1 / 2 ^ 52) ≤ nearest (y + 1 / 2 ^ 52) := nearest_mono (by linarith)
  exact nearest_mono (mul_le_mul_of_nonneg_right hnudged (placesScale_pos p).le)

/-- What lies below the cut-off goes to an integer below it. From `2^52` on there are no halves. -/
theorem abs_floor_le_of_lt (hx : Representable x) (h : |x| < 2 ^ 53) :
    |(⌊x + 1 / 2⌋ : ℚ)| ≤ 2 ^ 53 - 1 := by
  rcases lt_or_ge |x| (2 ^ 52) with hsmall | hlarge
  · have hoff := abs_sub_abs_le_abs_sub (⌊x + 1 / 2⌋ : ℚ) x
    linarith [abs_floor_sub_le x]
  · obtain ⟨k, hk⟩ := hx.exists_int_mul (e := 0) (by omega) (by rwa [pow_zero, mul_one])
    rw [pow_zero, mul_one] at hk
    subst hk
    have hlt : |k| < 2 ^ 53 := by exact_mod_cast h
    have hle : |k| ≤ 2 ^ 53 - 1 := by omega
    rw [floor_eq_of_abs_sub_lt (n := k) (by simp)]
    exact_mod_cast hle

theorem lt_mul_of_cutoff (hy : Representable y) (h : 2 ^ 53 ≤ scaledValue y p) :
    2 ^ 53 - 1 < y * placesScale p := by
  obtain ⟨-, hscaled⟩ := scaledValue_of_cutoff hy (h.trans (le_abs_self _))
  by_contra hle
  have hnearest := nearest_le representable_limit_pred (not_lt.mp hle)
  linarith

theorem mul_lt_of_cutoff (hx : Representable x) (h : scaledValue x p ≤ -2 ^ 53) :
    x * placesScale p < -(2 ^ 53 - 1) := by
  have habs : 2 ^ 53 ≤ |scaledValue x p| := le_abs.mpr (Or.inr (le_neg_of_le_neg h))
  obtain ⟨-, hscaled⟩ := scaledValue_of_cutoff hx habs
  by_contra hle
  have hnearest := le_nearest (representable_neg.mpr representable_limit_pred) (not_lt.mp hle)
  linarith

/-- A quotient by the scale lies between the numbers beyond the cut-off, on both sides. -/
theorem placesValue_le_of_cutoff (hx : |scaledValue x p| < 2 ^ 53) (hy : Representable y)
    (h : 2 ^ 53 ≤ scaledValue y p) : placesValue x p ≤ y := by
  have hfloor := (abs_le.mp (abs_floor_le_of_lt (representable_nearest _) hx)).2
  rw [placesValue, if_pos hx]
  apply nearest_le hy
  rw [div_le_iff₀ (placesScale_pos p)]
  exact hfloor.trans (lt_mul_of_cutoff hy h).le

theorem le_placesValue_of_cutoff (hx : Representable x) (hy : |scaledValue y p| < 2 ^ 53)
    (h : scaledValue x p ≤ -2 ^ 53) : x ≤ placesValue y p := by
  have hfloor := (abs_le.mp (abs_floor_le_of_lt (representable_nearest _) hy)).1
  rw [placesValue, if_pos hy]
  apply le_nearest hx
  rw [le_div_iff₀ (placesScale_pos p)]
  exact (mul_lt_of_cutoff hx h).le.trans hfloor

theorem placesValue_mono (hx : Representable x) (hy : Representable y) (h : x ≤ y) (p : ℕ) :
    placesValue x p ≤ placesValue y p := by
  have hscaled := scaledValue_mono h p
  rcases lt_or_ge |scaledValue x p| (2 ^ 53) with hxs | hxs
  · rcases lt_or_ge |scaledValue y p| (2 ^ 53) with hys | hys
    · rw [placesValue, if_pos hxs, placesValue, if_pos hys]
      have hfloor : ⌊scaledValue x p + 1 / 2⌋ ≤ ⌊scaledValue y p + 1 / 2⌋ :=
        Int.floor_mono (by linarith)
      apply nearest_mono
      exact div_le_div_of_nonneg_right (by exact_mod_cast hfloor) (placesScale_pos p).le
    · have habove : 2 ^ 53 ≤ scaledValue y p := by
        rcases le_abs.mp hys with hpos | hneg
        · exact hpos
        · linarith [(abs_lt.mp hxs).1]
      have hsame : placesValue y p = y := if_neg (not_lt.mpr hys)
      rw [hsame]
      exact placesValue_le_of_cutoff hxs hy habove
  · have hsame : placesValue x p = x := if_neg (not_lt.mpr hxs)
    rw [hsame]
    rcases lt_or_ge |scaledValue y p| (2 ^ 53) with hys | hys
    · have hbelow : scaledValue x p ≤ -2 ^ 53 := by
        rcases le_abs.mp hxs with hpos | hneg
        · linarith [(abs_lt.mp hys).2]
        · exact le_neg_of_le_neg hneg
      exact le_placesValue_of_cutoff hx hys hbelow
    · rwa [placesValue, if_neg (not_lt.mpr hys)]

/-- Rounding to decimal places keeps the order of finite numbers, whichever of them are rounded. -/
theorem roundToPlaces_mono (hv : v.isFinite = true) (hw : w.isFinite = true)
    (h : w.atLeast v = true) (p : ℕ) :
    (w.roundToPlaces p).atLeast (v.roundToPlaces p) = true := by
  obtain ⟨hvfinite, hvvalue⟩ := roundToPlaces_spec hv p
  obtain ⟨hwfinite, hwvalue⟩ := roundToPlaces_spec hw p
  rw [atLeast_iff hwfinite hvfinite, hvvalue, hwvalue]
  have hle := (atLeast_iff hw hv).mp h
  exact placesValue_mono (representable_value v) (representable_value w) hle p

/-- The numbers next to the cut-off of fifteen places: one is rounded, the other is too large. -/
theorem roundToPlaces_mono_cutoff :
    let v := ofDecimal 9007199254740991 15
    let w := ofDecimal 9007199254740993 15
    let scale := ofNat (Nat.pow 10 15)
    v.isFinite = true ∧ w.isFinite = true ∧ w.atLeast v = true ∧
      ((v + epsilon) * scale).atLeast exactIntegers = false ∧
      ((w + epsilon) * scale).atLeast exactIntegers = true ∧
      (w.roundToPlaces 15).atLeast (v.roundToPlaces 15) = true := by
  intro v w scale
  have hv : v.isFinite = true := by decide +kernel
  have hw : w.isFinite = true := by decide +kernel
  have hle : w.atLeast v = true := by decide +kernel
  exact ⟨hv, hw, hle, by decide +kernel, by decide +kernel, roundToPlaces_mono hv hw hle 15⟩

end KeypadCalculator.Binary64
