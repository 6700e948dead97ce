import KeypadCalculator.Proofs.Binary64.Nearest
import Mathlib.Order.Monotone.Odd

/-! Rounding on the rational line, with no bound on the exponent. -/

namespace KeypadCalculator.Binary64

variable {x y w : ℚ} {r s : ℕ}

/-- The rank nearest to a magnitude. -/
def rankOf (x : ℚ) : ℕ := nearestRank (x.num.natAbs * unitsPerOne) x.den

/-- The magnitude of a rank as a number. -/
def magnitude (r : ℕ) : ℚ := units r / unitsPerOne

/-- The representable number nearest to `x`, if there were no overflow. -/
def nearest (x : ℚ) : ℚ := if x < 0 then -magnitude (rankOf x) else magnitude (rankOf x)

def Representable (x : ℚ) : Prop := ∃ r, |x| = magnitude r

theorem unitsPerOne_cast {e : ℕ} (h : e ≤ 1074) : (unitsPerOne : ℚ) = 2 ^ e * 2 ^ (1074 - e) := by
  rw [unitsPerOne_eq h, Nat.cast_mul, Nat.cast_pow, Nat.cast_pow, Nat.cast_ofNat]

theorem unitsPerOne_pos : (0 : ℚ) < unitsPerOne := by
  rw [unitsPerOne_cast (Nat.zero_le _)]
  exact mul_pos (pow_pos two_pos _) (pow_pos two_pos _)

theorem isNearest_rankOf (x : ℚ) : IsNearest (|x| * unitsPerOne) (rankOf x) := by
  have h := isNearest_nearestRank (x.num.natAbs * unitsPerOne) x.den_pos
  have hx : |x| * unitsPerOne = ((x.num.natAbs * unitsPerOne : ℕ) : ℚ) / x.den := by
    have habs : |x| = (x.num.natAbs : ℚ) / x.den := by
      conv_lhs => rw [← Rat.num_div_den x]
      rw [abs_div, Nat.abs_cast, Nat.cast_natAbs, Int.cast_abs]
    rw [habs, Nat.cast_mul, div_mul_eq_mul_div]
  rw [hx]
  exact h

theorem magnitude_mul (r : ℕ) : magnitude r * unitsPerOne = units r :=
  div_mul_cancel₀ _ unitsPerOne_pos.ne'

theorem magnitude_strictMono : StrictMono magnitude := fun _ _ h =>
  div_lt_div_of_pos_right (units_cast_lt h) unitsPerOne_pos

theorem magnitude_nonneg (r : ℕ) : 0 ≤ magnitude r :=
  div_nonneg (Nat.cast_nonneg _) unitsPerOne_pos.le

@[simp] theorem magnitude_zero : magnitude 0 = 0 := by simp [magnitude]

theorem rankOf_mono (h : |x| ≤ |y|) : rankOf x ≤ rankOf y :=
  (isNearest_rankOf x).mono (isNearest_rankOf y) (mul_le_mul_of_nonneg_right h unitsPerOne_pos.le)

theorem rankOf_eq (h : |x| = magnitude r) : rankOf x = r := by
  have hx := isNearest_rankOf x
  rw [h, magnitude_mul] at hx
  exact hx.unique (isNearest_units r)

theorem Representable.units_rankOf (h : Representable x) :
    |x| * unitsPerOne = units (rankOf x) := by
  obtain ⟨r, hr⟩ := h
  rw [rankOf_eq hr, hr, magnitude_mul]

@[simp] theorem rankOf_zero : rankOf 0 = 0 := rankOf_eq (by simp)

@[simp] theorem rankOf_neg (x : ℚ) : rankOf (-x) = rankOf x :=
  Nat.le_antisymm (rankOf_mono (abs_neg x).le) (rankOf_mono (abs_neg x).ge)

theorem rankOf_abs (x : ℚ) : rankOf |x| = rankOf x :=
  Nat.le_antisymm (rankOf_mono (abs_abs x).le) (rankOf_mono (abs_abs x).ge)

theorem nearest_of_nonneg (h : 0 ≤ x) : nearest x = magnitude (rankOf x) := if_neg h.not_gt

@[simp] theorem nearest_zero : nearest 0 = 0 := by simp [nearest]

theorem nearest_neg (x : ℚ) : nearest (-x) = -nearest x := by
  rcases lt_trichotomy x 0 with h | rfl | h
  · rw [nearest_of_nonneg (by linarith), nearest, if_pos h, rankOf_neg, neg_neg]
  · simp [nearest]
  · rw [nearest_of_nonneg h.le, nearest, if_pos (by linarith), rankOf_neg]

/-- Rounding keeps the sign, unless it rounds to zero. -/
theorem nearest_lt_zero_iff (h : nearest x ≠ 0) : nearest x < 0 ↔ x < 0 := by
  have hmagnitude := magnitude_nonneg (rankOf x)
  rw [nearest] at h ⊢
  split at h
  · next hx =>
    have hne : magnitude (rankOf x) ≠ 0 := neg_ne_zero.mp h
    simp only [hx, if_true, iff_true, neg_lt_zero]
    exact lt_of_le_of_ne hmagnitude hne.symm
  · next hx =>
    simp only [hx, if_false, iff_false, not_lt]
    exact hmagnitude

theorem nearest_mono : Monotone nearest := by
  apply monotone_of_odd_of_monotoneOn_nonneg nearest_neg
  intro x hx y hy h
  rw [nearest_of_nonneg hx, nearest_of_nonneg hy]
  apply magnitude_strictMono.monotone
  apply rankOf_mono
  rwa [abs_of_nonneg hx, abs_of_nonneg hy]

theorem abs_nearest (x : ℚ) : |nearest x| = magnitude (rankOf x) := by
  have := magnitude_nonneg (rankOf x)
  rw [nearest]
  split
  · rw [abs_neg, abs_of_nonneg this]
  · exact abs_of_nonneg this

theorem representable_nearest (x : ℚ) : Representable (nearest x) := ⟨_, abs_nearest x⟩

theorem representable_neg : Representable (-x) ↔ Representable x := by
  rw [Representable, Representable, abs_neg]

theorem nearest_eq_self (h : Representable x) : nearest x = x := by
  obtain ⟨r, hr⟩ := h
  rw [nearest, rankOf_eq hr, ← hr]
  split
  · next hx => rw [abs_of_neg hx, neg_neg]
  · next hx => exact abs_of_nonneg (not_lt.mp hx)

theorem nearest_le (hy : Representable y) (h : x ≤ y) : nearest x ≤ y :=
  (nearest_mono h).trans (nearest_eq_self hy).le

theorem le_nearest (hy : Representable y) (h : y ≤ x) : y ≤ nearest x :=
  (nearest_eq_self hy).ge.trans (nearest_mono h)

theorem abs_nearest_le (hy : Representable y) (h : |x| ≤ y) : |nearest x| ≤ y := by
  obtain ⟨hlo, hhi⟩ := abs_le.mp h
  exact abs_le.mpr ⟨le_nearest (representable_neg.mpr hy) hlo, nearest_le hy hhi⟩

theorem le_abs_nearest (hy : Representable y) (h : y ≤ |x|) : y ≤ |nearest x| := by
  rcases le_abs.mp h with hx | hx
  · exact le_abs.mpr (Or.inl (le_nearest hy hx))
  · exact le_abs.mpr (Or.inr (by rw [← nearest_neg]; exact le_nearest hy hx))

/-- A multiple of a power of two of units is representable with a coefficient of 53 bits. -/
theorem representable_of_units {k : ℤ} (hx : x * unitsPerOne = k * 2 ^ s) (hk : |k| ≤ 2 ^ 53) :
    Representable x := by
  have hk' : k.natAbs ≤ 2 * binade := by
    rw [Int.abs_eq_natAbs] at hk
    exact_mod_cast hk
  obtain ⟨r, hr⟩ := exists_units s hk'
  refine ⟨r, ?_⟩
  have hpow : (0 : ℚ) < 2 ^ s := by positivity
  rw [magnitude, eq_div_iff unitsPerOne_pos.ne', hr]
  calc |x| * unitsPerOne = |x * unitsPerOne| := by rw [abs_mul, abs_of_pos unitsPerOne_pos]
    _ = |(k : ℚ)| * 2 ^ s := by rw [hx, abs_mul, abs_of_pos hpow]
    _ = (k.natAbs * 2 ^ s : ℕ) := by
      rw [Nat.cast_mul, Nat.cast_natAbs, Int.cast_abs, Nat.cast_pow, Nat.cast_ofNat]

theorem representable_div {k : ℤ} {e : ℕ} (he : e ≤ 1074) (hk : |k| ≤ 2 ^ 53) :
    Representable (k / 2 ^ e) := by
  apply representable_of_units (s := 1074 - e) _ hk
  rw [unitsPerOne_cast he, ← mul_assoc, div_mul_cancel₀ _ (pow_ne_zero e two_ne_zero)]

theorem representable_int {k : ℤ} (hk : |k| ≤ 2 ^ 53) : Representable k := by
  have h := representable_div (e := 0) (Nat.zero_le _) hk
  rwa [pow_zero, div_one] at h

theorem representable_two_pow {e : ℕ} (h : e ≤ 53) : Representable (2 ^ e) := by
  have hk : |(2 : ℤ) ^ e| ≤ 2 ^ 53 := by
    rw [abs_of_pos (by positivity)]
    exact pow_le_pow_right₀ (by norm_num) h
  have hrep := representable_int hk
  rwa [Int.cast_pow, Int.cast_ofNat] at hrep

theorem representable_halvings {e : ℕ} (h : e ≤ 1074) : Representable (1 / 2 ^ e) := by
  have hrep := representable_div (k := 1) h (by norm_num)
  rwa [Int.cast_one] at hrep

theorem exists_int_of_abs {c : ℕ} (h : |x| = c) : ∃ n : ℤ, x = n := by
  rcases abs_choice x with ha | ha
  · exact ⟨c, by rw [← ha, h, Int.cast_natCast]⟩
  · exact ⟨-c, by rw [Int.cast_neg, Int.cast_natCast, ← h, ha, neg_neg]⟩

/-- A representable number with no bit below `2^-e`, being so large. -/
theorem Representable.exists_int_mul {e : ℕ} (h : Representable x) (he : e ≤ 1074)
    (hx : 2 ^ 52 ≤ |x| * 2 ^ e) : ∃ n : ℤ, x * 2 ^ e = n := by
  obtain ⟨r, hr⟩ := h
  have hpow : (0 : ℚ) < 2 ^ (1074 - e) := pow_pos two_pos _
  have hscale : |x| * 2 ^ e * 2 ^ (1074 - e) = units r := by
    rw [mul_assoc, ← unitsPerOne_cast he, hr, magnitude_mul]
  have hle : binade * 2 ^ (1074 - e) ≤ units r := by
    have := mul_le_mul_of_nonneg_right hx hpow.le
    rw [hscale] at this
    exact_mod_cast this
  obtain ⟨c, hc⟩ := dvd_units_of_le hle
  apply exists_int_of_abs (c := c)
  rw [hc, Nat.cast_mul, Nat.cast_pow, Nat.cast_ofNat, mul_comm] at hscale
  have he' : (0 : ℚ) < 2 ^ e := pow_pos two_pos e
  rw [abs_mul, abs_of_pos he']
  exact mul_left_cancel₀ hpow.ne' hscale

theorem abs_nearest_sub (x : ℚ) : |nearest x - x| = |(|x| - magnitude (rankOf x))| := by
  rw [nearest]
  split
  · next h => rw [abs_of_neg h, show -magnitude (rankOf x) - x = -x - magnitude (rankOf x) by ring]
  · next h => rw [abs_of_nonneg (not_lt.mp h), abs_sub_comm]

theorem abs_sub_magnitude (x : ℚ) (r : ℕ) :
    |(|x| - magnitude r)| * unitsPerOne = |(|x| * unitsPerOne - units r)| := by
  rw [← magnitude_mul, ← sub_mul, abs_mul, abs_of_pos unitsPerOne_pos]

/-- No representable number is nearer. -/
theorem abs_nearest_sub_le_abs_sub (x : ℚ) (hy : Representable y) : |nearest x - x| ≤ |y - x| := by
  obtain ⟨r, hr⟩ := hy
  have h := (isNearest_rankOf x).le r
  rw [← abs_sub_magnitude, ← abs_sub_magnitude, ← abs_nearest_sub, ← hr] at h
  calc |nearest x - x| ≤ |(|x| - |y|)| := le_of_mul_le_mul_right h unitsPerOne_pos
    _ ≤ |x - y| := abs_abs_sub_abs_le_abs_sub x y
    _ = |y - x| := abs_sub_comm x y

theorem abs_nearest_sub_le (x : ℚ) : 2 * (|nearest x - x| * unitsPerOne) ≤ gap (rankOf x) := by
  rw [abs_nearest_sub, abs_sub_magnitude]
  exact (isNearest_rankOf x).abs_sub_le (mul_nonneg (abs_nonneg x) unitsPerOne_pos.le)

/-- Where the numbers are not subnormal, rounding is off by one part in `2^53` at most. -/
theorem abs_nearest_sub_mul_le (h : 1 ≤ |x| * 2 ^ 1022) :
    |nearest x - x| * 2 ^ 53 ≤ |nearest x| := by
  have hU := unitsPerOne_pos
  have hbinade : (units binade : ℚ) ≤ |x| * unitsPerOne := by
    have hpow : (0 : ℚ) ≤ 2 ^ (1074 - 1022) := pow_nonneg two_pos.le _
    rw [units_binade_self, unitsPerOne_cast (e := 1022) (by omega), ← mul_assoc]
    exact_mod_cast le_mul_of_one_le_left hpow h
  have hrank : binade ≤ rankOf x := (isNearest_units binade).mono (isNearest_rankOf x) hbinade
  have hgap : (gap (rankOf x) : ℚ) * 2 ^ 52 ≤ units (rankOf x) := by
    exact_mod_cast gap_mul_le hrank
  have hoff := abs_nearest_sub_le x
  rw [abs_nearest, magnitude, le_div_iff₀ hU]
  linarith

/-- What lies as near to a rounded number as the number it was rounded from is rounded to it as
well, except across the end of a binade. -/
theorem nearest_eq_of_abs_sub_le (hr : rankOf x % binade ≠ 0)
    (h : |y - nearest x| ≤ |x - nearest x|) : nearest y = nearest x := by
  have hU := unitsPerOne_pos
  have hx := isNearest_rankOf x
  obtain ⟨hle, heven⟩ := (isNearest_iff_abs hr).mp hx
  have hdist : |(|y| * unitsPerOne - units (rankOf x))| ≤
      |(|x| * unitsPerOne - units (rankOf x))| := by
    rw [← abs_sub_magnitude, ← abs_sub_magnitude, ← abs_nearest_sub, ← abs_nearest]
    apply mul_le_mul_of_nonneg_right _ hU.le
    rw [abs_sub_comm (nearest x)]
    exact (abs_abs_sub_abs_le_abs_sub _ _).trans h
  have hrank : rankOf y = rankOf x := by
    apply (isNearest_rankOf y).unique
    apply (isNearest_iff_abs hr).mpr
    refine ⟨by linarith, ?_⟩
    intro he
    exact heven (le_antisymm hle (by linarith))
  have hgap : (gap (rankOf x) : ℚ) ≤ units (rankOf x) := by
    exact_mod_cast gap_le_units (Nat.pos_of_ne_zero fun h0 => hr (by rw [h0, Nat.zero_mod]))
  have hoff := abs_nearest_sub_le x
  have hhalf : 2 * |y - nearest x| ≤ |nearest x| := by
    rw [abs_sub_comm (nearest x)] at hoff
    rw [abs_nearest, magnitude, le_div_iff₀ hU]
    linarith [mul_le_mul_of_nonneg_right h hU.le]
  have hpos : 0 < magnitude (rankOf x) := by
    rw [← magnitude_zero]
    exact magnitude_strictMono (Nat.pos_of_ne_zero fun h0 => hr (by rw [h0, Nat.zero_mod]))
  rw [abs_nearest] at hhalf
  rcases lt_or_ge x 0 with hx0 | hx0
  · rw [show nearest x = -magnitude (rankOf x) from if_pos hx0] at hhalf ⊢
    have hy : y < 0 := by linarith [le_abs_self (y - -magnitude (rankOf x))]
    rw [nearest, if_pos hy, hrank]
  · rw [nearest_of_nonneg hx0] at hhalf ⊢
    have hy : 0 ≤ y := by linarith [neg_abs_le (y - magnitude (rankOf x))]
    rw [nearest_of_nonneg hy, hrank]

/-- The numbers at the ends of a binade are the powers of two, which are integers from one on. -/
theorem Representable.exists_int_of_boundary (hr : rankOf x % binade = 0) (h : Representable x)
    (hx : 1 ≤ |x|) : ∃ n : ℤ, x = n := by
  have hrank := h.units_rankOf
  have hle : unitsPerOne ≤ units (rankOf x) := by
    have := mul_le_mul_of_nonneg_right hx unitsPerOne_pos.le
    rw [one_mul, hrank] at this
    exact_mod_cast this
  have hbig : binade ≤ rankOf x := by
    by_contra hlt
    rw [Nat.mod_eq_of_lt (Nat.not_le.mp hlt)] at hr
    rw [hr, units_zero, Nat.cast_zero] at hrank
    exact absurd hrank (mul_pos (by linarith) unitsPerOne_pos).ne'
  have hpow : units (rankOf x) = 2 ^ (52 + (rankOf x / binade - 1)) := by
    rw [units_of_le hbig, hr, Nat.add_zero, gap, Nat.pow_add]
  obtain ⟨c, hc⟩ : unitsPerOne ∣ units (rankOf x) := by
    rw [hpow] at hle ⊢
    exact unitsPerOne_dvd hle
  apply exists_int_of_abs (c := c)
  rw [hc, Nat.cast_mul, mul_comm] at hrank
  exact mul_left_cancel₀ unitsPerOne_pos.ne' hrank

end KeypadCalculator.Binary64
