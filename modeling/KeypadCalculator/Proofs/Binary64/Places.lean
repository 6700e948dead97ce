import KeypadCalculator.Proofs.Binary64.Integers

/-! Rounding to decimal places on the rational line, and when a second time changes nothing. -/

namespace KeypadCalculator.Binary64

variable {v : Binary64} {w x y : ℚ} {m n : ℤ} {p : ℕ}

/-- The weight of the last decimal place that is kept, upside down. -/
def placesScale (places : ℕ) : ℚ := 10 ^ min places maxPrecision

/-- The value with its nudge, scaled to the decimal places. Both steps are rounded. -/
def scaledValue (x : ℚ) (places : ℕ) : ℚ :=
  nearest (nearest (x + 1 / 2 ^ 52) * placesScale places)

/-- What rounding to decimal places makes of a value. -/
def placesValue (x : ℚ) (places : ℕ) : ℚ :=
  if |scaledValue x places| < 2 ^ 53 then
    nearest (⌊scaledValue x places + 1 / 2⌋ / placesScale places)
  else x

theorem one_le_placesScale (p : ℕ) : 1 ≤ placesScale p := one_le_pow₀ (by norm_num)

theorem placesScale_pos (p : ℕ) : 0 < placesScale p := one_pos.trans_le (one_le_placesScale p)

theorem abs_mul_placesScale (x : ℚ) (p : ℕ) : |x * placesScale p| = |x| * placesScale p := by
  rw [abs_mul, abs_of_pos (placesScale_pos p)]

theorem abs_div_placesScale (x : ℚ) (p : ℕ) : |x / placesScale p| = |x| / placesScale p := by
  rw [abs_div, abs_of_pos (placesScale_pos p)]

theorem placesScale_le (p : ℕ) : placesScale p ≤ 10 ^ 15 :=
  pow_le_pow_right₀ (by norm_num) (Nat.min_le_right _ _)

theorem representable_ofNat {k : ℕ} (h : k ≤ 2 ^ 53) : Representable k := by
  have hk := representable_int (k := k) (by rw [Nat.abs_cast]; exact_mod_cast h)
  rwa [Int.cast_natCast] at hk

theorem abs_nudged_sub_le (hx : Representable x) :
    |nearest (x + 1 / 2 ^ 52) - (x + 1 / 2 ^ 52)| ≤ 1 / 2 ^ 52 := by
  apply (abs_nearest_sub_le_abs_sub _ hx).trans_eq
  rw [sub_add_cancel_left, abs_neg, abs_of_pos (by norm_num)]

/-- The nudge is lost beside a number larger than four, whose neighbours are `2^-50` away. -/
theorem nearest_add_epsilon (hx : Representable x) (h : 4 < |x|) :
    nearest (x + 1 / 2 ^ 52) = x := by
  have hfour : Representable (2 ^ 2) := representable_two_pow (by omega)
  obtain ⟨k, hk⟩ := hx.exists_int_mul (e := 50) (by omega) (by linarith)
  have hfar : 2 ^ 2 ≤ |nearest (x + 1 / 2 ^ 52)| := by
    apply le_abs_nearest hfour
    rcases lt_abs.mp h with hpos | hneg
    · exact le_abs.mpr (Or.inl (by linarith [show (0 : ℚ) < 1 / 2 ^ 52 by norm_num]))
    · have hk4 : k + 1 ≤ -(4 * 2 ^ 50) := by
        have : (k : ℚ) < -(4 * 2 ^ 50) := by linarith
        exact_mod_cast this
      have hk4' : (k : ℚ) + 1 ≤ -(4 * 2 ^ 50) := by exact_mod_cast hk4
      exact le_abs.mpr (Or.inr (by linarith))
  obtain ⟨j, hj⟩ := (representable_nearest (x + 1 / 2 ^ 52)).exists_int_mul (e := 50) (by omega)
    (by linarith)
  obtain ⟨hlo, hhi⟩ := abs_le.mp (abs_nudged_sub_le hx)
  have hjk : j = k := by
    have h1 : (j : ℚ) < k + 1 := by linarith
    have h2 : (k : ℚ) < j + 1 := by linarith
    have h1' : j < k + 1 := by exact_mod_cast h1
    have h2' : k < j + 1 := by exact_mod_cast h2
    omega
  subst hjk
  exact mul_right_cancel₀ (by norm_num) (hj.trans hk.symm)

/-- What is near a small integer stays so when it is rounded, for the numbers at that distance from
the integer are representable. -/
theorem abs_nearest_sub_int_le {e k : ℕ} (he : e ≤ 1074) (hn : |n| * 2 ^ e + k ≤ 2 ^ 53)
    (h : |x - n| ≤ k / 2 ^ e) : |nearest x - n| ≤ k / 2 ^ e := by
  have hrep (j : ℤ) (hj : |j| ≤ k) : Representable (n + j / 2 ^ e) := by
    have hsize : |n * 2 ^ e + j| ≤ 2 ^ 53 := by
      have hsum := abs_add_le (n * 2 ^ e) j
      rw [abs_mul, abs_of_pos (a := (2 : ℤ) ^ e) (by positivity)] at hsum
      omega
    have hquotient : (n : ℚ) + j / 2 ^ e = ((n * 2 ^ e + j : ℤ) : ℚ) / 2 ^ e := by
      push_cast
      field_simp
    rw [hquotient]
    exact representable_div he hsize
  have hbelow := hrep (-k) (by rw [abs_neg, Nat.abs_cast])
  have habove := hrep k (by rw [Nat.abs_cast])
  push_cast at hbelow habove
  obtain ⟨hlo, hhi⟩ := abs_le.mp h
  have hge := le_nearest (x := x) hbelow (by rw [neg_div]; linarith)
  have hle := nearest_le (x := x) habove (by linarith)
  rw [neg_div] at hge
  exact abs_le.mpr ⟨by linarith, by linarith⟩

theorem isFinite_scale (p : ℕ) : (ofNat (Nat.pow 10 (min p maxPrecision))).isFinite = true := by
  refine isFinite_ofNat ((Nat.pow_le_pow_right (by norm_num) (Nat.min_le_right _ _)).trans ?_)
  rw [maxPrecision]
  norm_num

theorem value_scale (p : ℕ) : (ofNat (Nat.pow 10 (min p maxPrecision))).value = placesScale p := by
  rw [value_ofNat, placesScale, Nat.pow_eq, Nat.cast_pow, Nat.cast_ofNat]
  apply (Nat.pow_le_pow_right (by norm_num) (Nat.min_le_right _ _)).trans
  rw [maxPrecision]
  norm_num

theorem isFinite_epsilon : epsilon.isFinite = true := isFinite_ofHalvings 52

theorem isFinite_add_epsilon (hv : v.isFinite = true) : (v + epsilon).isFinite = true := by
  have hsum := roundsTo_add hv isFinite_epsilon
  rw [epsilon, value_ofHalvings (by omega)] at hsum
  rw [epsilon, hsum.isFinite_iff]
  rcases le_or_gt |v.value| 4 with hle | hgt
  · obtain ⟨hlo, hhi⟩ := abs_le.mp hle
    refine rankOf_lt_of_abs_le (abs_le.mpr ⟨?_, ?_⟩) <;> linarith
  · rw [← rankOf_nearest, nearest_add_epsilon (representable_value v) hgt]
    exact rankOf_value_lt v

theorem roundsTo_scaled (hv : v.isFinite = true) :
    RoundsTo (nearest (v.value + 1 / 2 ^ 52) * placesScale p)
      ((v + epsilon) * ofNat (Nat.pow 10 (min p maxPrecision))) := by
  have hsum := roundsTo_add hv isFinite_epsilon
  have hfinite := isFinite_add_epsilon hv
  have hvalue := hsum.value_eq hfinite
  rw [epsilon, value_ofHalvings (by omega), ← epsilon] at hvalue
  have hprod := roundsTo_mul hfinite (isFinite_scale p)
  rwa [hvalue, value_scale] at hprod

/-- What has no such places is just what is scaled to `2^53` or more. -/
theorem isLarge_iff (hv : v.isFinite = true) :
    (!((v + epsilon) * ofNat (Nat.pow 10 (min p maxPrecision))).isFinite ||
      ((v + epsilon) * ofNat (Nat.pow 10 (min p maxPrecision))).abs.atLeast exactIntegers) = true ↔
      2 ^ 53 ≤ |scaledValue v.value p| := by
  have hscaled := roundsTo_scaled (p := p) hv
  have hlimit : exactIntegers.isFinite = true := isFinite_ofNat (by norm_num)
  have hvalue : exactIntegers.value = 2 ^ 53 := by
    rw [exactIntegers, value_ofNat (by norm_num)]
    norm_num
  generalize (v + epsilon) * ofNat (Nat.pow 10 (min p maxPrecision)) = c at hscaled ⊢
  rw [Bool.or_eq_true, Bool.not_eq_true', scaledValue]
  cases hfin : c.isFinite with
  | true =>
    rw [atLeast_iff (by rwa [isFinite_abs]) hlimit, hvalue, value_abs hfin, hscaled.value_eq hfin]
    exact or_iff_right (by decide)
  | false =>
    have hrank : ¬ rankOf (nearest (v.value + 1 / 2 ^ 52) * placesScale p) < finiteRanks := by
      rw [← hscaled.isFinite_iff, hfin]
      simp
    rw [rankOf_lt_iff, not_lt] at hrank
    have hle : (2 : ℚ) ^ 53 ≤ 2 ^ 1024 := pow_le_pow_right₀ one_le_two (by omega)
    exact iff_of_true (Or.inl rfl) (hle.trans hrank)

/-- The floor of a half more is a nearest integer. -/
theorem abs_floor_sub_le (s : ℚ) : |(⌊s + 1 / 2⌋ : ℚ) - s| ≤ 1 / 2 := by
  have hlo := Int.floor_le (s + 1 / 2)
  have hhi := Int.lt_floor_add_one (s + 1 / 2)
  exact abs_le.mpr ⟨by linarith, by linarith⟩

theorem abs_floor_le {s : ℚ} (h : |s| ≤ 2 ^ 53) : |⌊s + 1 / 2⌋| ≤ 2 ^ 53 := by
  obtain ⟨hlo, hhi⟩ := abs_le.mp h
  refine abs_le.mpr ⟨?_, ?_⟩
  · rw [Int.le_floor]
    push_cast
    linarith
  · rw [← Int.lt_add_one_iff, Int.floor_lt]
    push_cast
    linarith

/-- Rounding to decimal places is the same on the line, and never leaves the finite numbers. -/
theorem roundToPlaces_spec (hv : v.isFinite = true) (p : ℕ) :
    (v.roundToPlaces p).isFinite = true ∧ (v.roundToPlaces p).value = placesValue v.value p := by
  have hlarge := isLarge_iff (p := p) hv
  have hscaled := roundsTo_scaled (p := p) hv
  simp only [roundToPlaces]
  by_cases h : 2 ^ 53 ≤ |scaledValue v.value p|
  · rw [if_pos (hlarge.mpr h), placesValue, if_neg (not_lt.mpr h)]
    exact ⟨hv, rfl⟩
  · rw [if_neg (fun hc => h (hlarge.mp hc)), placesValue, if_pos (not_le.mp h)]
    have hfinite : ((v + epsilon) * ofNat (Nat.pow 10 (min p maxPrecision))).isFinite = true := by
      by_contra hinf
      exact h (hlarge.mp (by rw [Bool.not_eq_true] at hinf; rw [hinf]; rfl))
    obtain ⟨hup, hupvalue⟩ := roundHalfUp_spec hfinite
    have hne : (ofNat (Nat.pow 10 (min p maxPrecision))).value ≠ 0 := by
      rw [value_scale]
      exact (placesScale_pos p).ne'
    have hdiv := roundsTo_div hup (isFinite_scale p) hne
    rw [hupvalue, hscaled.value_eq hfinite, value_scale] at hdiv
    have hsize : |(⌊scaledValue v.value p + 1 / 2⌋ : ℚ) / placesScale p| ≤ 2 ^ 53 := by
      have hfloor : |(⌊scaledValue v.value p + 1 / 2⌋ : ℚ)| ≤ 2 ^ 53 := by
        exact_mod_cast abs_floor_le (not_le.mp h).le
      rw [abs_div_placesScale]
      exact (div_le_self (abs_nonneg _) (one_le_placesScale p)).trans hfloor
    have hfin := hdiv.isFinite hsize
    exact ⟨hfin, hdiv.value_eq hfin⟩

end KeypadCalculator.Binary64
