import KeypadCalculator.Proofs.Binary64.Coarsest
import KeypadCalculator.Proofs.Binary64.Steady

/-! Decimals of up to fifteen digits: a number made from one is written as it, and the errors of a
sum of two are too small to change a digit. -/

namespace KeypadCalculator.Binary64

variable {a b x y w : ℚ} {m n : ℤ} {p e i : ℕ}

/-- Multiples of `2^-e` are representable up to `2^53` of them, so one is near. -/
theorem abs_nearest_sub_mul_two_pow_le (he : e ≤ 1074) (h : |x| * 2 ^ e ≤ 2 ^ 53) :
    |nearest x - x| * 2 ^ (e + 1) ≤ 1 := by
  have hpow : (0 : ℚ) < 2 ^ e := by positivity
  have habs : ∀ y : ℚ, |y * 2 ^ e| = |y| * 2 ^ e := fun y => by rw [abs_mul, abs_of_pos hpow]
  rw [← habs] at h
  have hnear := abs_nearest_sub_le_abs_sub x (representable_div he (abs_floor_le h))
  have hoff := abs_floor_sub_le (x * 2 ^ e)
  generalize ⌊x * 2 ^ e + 1 / 2⌋ = k at hnear hoff
  have hscale : |(k : ℚ) / 2 ^ e - x| * 2 ^ e = |k - x * 2 ^ e| := by
    rw [← habs, sub_mul, div_mul_cancel₀ _ hpow.ne']
  have hmul := mul_le_mul_of_nonneg_right hnear hpow.le
  rw [pow_succ]
  linarith

/-- The unit of the fifteenth digit spans at least nine numbers. -/
theorem abs_nearest_scaled_sub_lt (h : |x * placesScale p| ≤ 10 ^ 15) :
    |nearest x * placesScale p - x * placesScale p| < 1 / 9 := by
  have hS := placesScale_pos p
  have hone : (1 : ℚ) ≤ 2 ^ 53 * placesScale p / 10 ^ 15 := by
    have := one_le_placesScale p
    rw [le_div_iff₀ (by norm_num)]
    linarith
  obtain ⟨e, hlo, hhi⟩ := exists_nat_pow_near hone one_lt_two
  rw [le_div_iff₀ (by norm_num)] at hlo
  rw [div_lt_iff₀ (by norm_num)] at hhi
  have he : e ≤ 53 := by
    have hscale := placesScale_le p
    have hle : (2 : ℚ) ^ e ≤ 2 ^ 53 := by linarith
    exact (pow_le_pow_iff_right₀ one_lt_two).mp hle
  have hsize : |x| * 2 ^ e ≤ 2 ^ 53 := by
    have hpow : (0 : ℚ) ≤ 2 ^ e := by positivity
    have hmul := mul_le_mul_of_nonneg_right h hpow
    rw [abs_mul_placesScale] at hmul
    apply le_of_mul_le_mul_right _ hS
    linarith
  have hoff := abs_nearest_sub_mul_two_pow_le (by omega) hsize
  have hmul := mul_le_mul_of_nonneg_left hhi.le (abs_nonneg (nearest x - x))
  rw [← sub_mul, abs_mul_placesScale]
  linarith

/-- The sum of two rounded numbers, rounded itself, is off by three such errors. -/
theorem abs_rounded_sum_sub_lt (ha : a * placesScale p = m) (hb : b * placesScale p = n)
    (hm : |m| < 10 ^ 15) (hn : |n| < 10 ^ 15) (hsum : |m + n| < 10 ^ 15) :
    |nearest (nearest a + nearest b) * placesScale p - (m + n : ℤ)| < 1 / 3 := by
  have hm' : |(m : ℚ)| ≤ 10 ^ 15 := by exact_mod_cast hm.le
  have hn' : |(n : ℚ)| ≤ 10 ^ 15 := by exact_mod_cast hn.le
  have hsum' : |((m + n : ℤ) : ℚ)| ≤ 10 ^ 15 - 1 := by
    exact_mod_cast Int.le_sub_one_of_lt hsum
  have hA := abs_nearest_scaled_sub_lt (x := a) (p := p) (by rwa [ha])
  have hB := abs_nearest_scaled_sub_lt (x := b) (p := p) (by rwa [hb])
  rw [ha] at hA
  rw [hb] at hB
  have hexact : |(nearest a + nearest b) * placesScale p - (m + n : ℤ)| < 2 / 9 := by
    push_cast
    rw [add_mul, add_sub_add_comm]
    exact (abs_add_le _ _).trans_lt (by linarith)
  have hsize : |(nearest a + nearest b) * placesScale p| ≤ 10 ^ 15 := by
    have hdiff := abs_sub_abs_le_abs_sub ((nearest a + nearest b) * placesScale p) (m + n : ℤ)
    linarith
  have hC := abs_nearest_scaled_sub_lt hsize
  have htotal := abs_sub_le (nearest (nearest a + nearest b) * placesScale p)
    ((nearest a + nearest b) * placesScale p) (m + n : ℤ)
  linarith

/-- Up to twelve places the nudge is less than a thousandth of the last one. -/
theorem abs_nudged_scaled_sub_lt (hp : p ≤ 12) (hw : Representable w) :
    |nearest (w + 1 / 2 ^ 52) * placesScale p - w * placesScale p| < 1 / 1000 := by
  have hscale : placesScale p ≤ 10 ^ 12 :=
    pow_le_pow_right₀ (by norm_num) ((Nat.min_le_left _ _).trans hp)
  have hnudge : |nearest (w + 1 / 2 ^ 52) - w| ≤ 2 / 2 ^ 52 := by
    obtain ⟨hlo, hhi⟩ := abs_le.mp (abs_nudged_sub_le hw)
    exact abs_le.mpr ⟨by linarith, by linarith⟩
  rw [← sub_mul, abs_mul_placesScale]
  calc |nearest (w + 1 / 2 ^ 52) - w| * placesScale p ≤ 2 / 2 ^ 52 * 10 ^ 12 :=
        mul_le_mul hnudge hscale (placesScale_pos p).le (by norm_num)
    _ < 1 / 1000 := by norm_num

/-- What is within a third of an integer of up to fifteen digits is rounded to it. -/
theorem placesValue_of_abs_sub_lt (hp : p ≤ 12) (hw : Representable w) (hn : |n| < 10 ^ 15)
    (h : |w * placesScale p - n| < 1 / 3) : placesValue w p = nearest (n / placesScale p) := by
  have hnudge := abs_nudged_scaled_sub_lt hp hw
  have hnear : |nearest (w + 1 / 2 ^ 52) * placesScale p - n| < 1 / 3 + 1 / 1000 := by
    have htotal := abs_sub_le (nearest (w + 1 / 2 ^ 52) * placesScale p) (w * placesScale p) n
    linarith
  have hscaled : |scaledValue w p - n| ≤ (3 : ℕ) / 2 ^ 3 := by
    apply abs_nearest_sub_int_le (by omega) (by omega)
    push_cast
    linarith
  have hbelow : |scaledValue w p| < 2 ^ 53 := by
    have hn' : |(n : ℚ)| < 10 ^ 15 := by exact_mod_cast hn
    have hdiff := abs_sub_abs_le_abs_sub (scaledValue w p) n
    linarith
  rw [placesValue, if_pos hbelow, floor_eq_of_abs_sub_lt (n := n)]
  exact hscaled.trans_lt (by norm_num)

theorem placesValue_sum (hp : p ≤ 12) (ha : a * placesScale p = m) (hb : b * placesScale p = n)
    (hm : |m| < 10 ^ 15) (hn : |n| < 10 ^ 15) (hsum : |m + n| < 10 ^ 15) :
    placesValue (nearest (nearest a + nearest b)) p = nearest ((m + n : ℤ) / placesScale p) :=
  placesValue_of_abs_sub_lt hp (representable_nearest _) hsum
    (abs_rounded_sum_sub_lt ha hb hm hn hsum)

/-- Two decimals with so few digits and the same places are not rounded to one number. -/
theorem eq_of_nearest_div_eq (hm : |m| < 10 ^ 15)
    (h : nearest (m / placesScale p) = nearest (n / placesScale p)) : m = n := by
  have hmw := abs_sub_mul_le (n := m) (p := p) rfl
  have hnw := abs_sub_mul_le (n := n) h.symm
  generalize nearest (m / placesScale p) * placesScale p = y at hmw hnw
  have hm' : |(m : ℚ)| < 10 ^ 15 := by exact_mod_cast hm
  have hy : |y| < 2 * 10 ^ 15 := by
    have := abs_sub_abs_le_abs_sub y m
    linarith
  have hdiff : |(m : ℚ) - n| < 1 := by
    have := abs_sub_le (m : ℚ) y n
    rw [abs_sub_comm (m : ℚ) y] at this
    linarith
  by_contra hne
  have := one_le_abs_of_ne (sub_ne_zero.mpr hne)
  push_cast at this
  linarith

/-- A decimal with no more places is an integer of the last one. -/
theorem exists_eq_div_placesScale (d : Decimal)
    (h : -((min p maxPrecision : ℕ) : ℤ) ≤ d.exponent) :
    ∃ k : ℕ, d.value = k / placesScale p := by
  have hnonneg : 0 ≤ d.exponent + (min p maxPrecision : ℕ) := by omega
  obtain ⟨j, hj⟩ := Int.eq_ofNat_of_zero_le hnonneg
  have hexponent : d.exponent = (j : ℤ) - (min p maxPrecision : ℕ) := by omega
  refine ⟨d.coefficient * 10 ^ j, ?_⟩
  rw [Decimal.value, hexponent, zpow_sub₀ (by norm_num), zpow_natCast, zpow_natCast, placesScale]
  push_cast
  ring

/-- A number made from a decimal of up to fifteen digits is written as that decimal, for its
shortest one has no more places. -/
theorem value_shortest (hn : |n| < 10 ^ 15) (hi : i ≠ 0)
    (h : rankOf (n / placesScale p) = i) : (shortest .larger i).value = |n / placesScale p| := by
  have hplaces : min p maxPrecision ≤ 1074 := (Nat.min_le_right _ _).trans (by decide)
  have habs : |(n : ℚ) / placesScale p| = (n.natAbs : ℤ) / placesScale p := by
    rw [abs_div_placesScale, Int.natCast_natAbs, Int.cast_abs]
  rw [← rankOf_abs, habs] at h
  obtain ⟨k, hk⟩ := exists_eq_div_placesScale _ (neg_le_exponent_shortest .larger hi hplaces h)
  have hk0 : 0 ≤ (k : ℚ) / placesScale p := hk ▸ value_nonneg _
  have hn0 : 0 ≤ ((n.natAbs : ℤ) : ℚ) / placesScale p := habs ▸ abs_nonneg _
  have hsame : nearest ((n.natAbs : ℤ) / placesScale p) = nearest ((k : ℤ) / placesScale p) := by
    rw [nearest_of_nonneg hn0, h, Int.cast_natCast, nearest_of_nonneg hk0, ← hk,
      rankOf_shortest .larger hi]
  have heq := eq_of_nearest_div_eq (by rwa [Int.natCast_natAbs, abs_abs]) hsame
  rw [habs, hk, heq, Int.cast_natCast]

end KeypadCalculator.Binary64
