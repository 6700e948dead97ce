import KeypadCalculator.Proofs.Binary64.Places

/-! When rounding to decimal places a second time changes nothing. -/

namespace KeypadCalculator.Binary64

variable {w x : ℚ} {m n : ℤ} {p : ℕ}

/-- The scaled value and the exact one go to the same integer, or the value is so large that its
neighbours are about as far away as the decimal places. -/
def Steady (w : ℚ) (places : ℕ) : Prop :=
  2 ^ 52 ≤ |w * placesScale places| ∨
    ⌊scaledValue w places + 1 / 2⌋ = ⌊w * placesScale places + 1 / 2⌋

/-- A quotient that is rounded to `w` has its numerator next to the exact one. -/
theorem abs_sub_mul_le (hn : nearest (n / placesScale p) = w) :
    |w * placesScale p - n| * 2 ^ 53 ≤ |w * placesScale p| := by
  have hS := placesScale_pos p
  rcases eq_or_ne n 0 with rfl | hne
  · have hzero : Representable 0 := ⟨0, by simp⟩
    rw [Int.cast_zero, zero_div, nearest_eq_self hzero] at hn
    rw [← hn]
    norm_num
  · have hnormal : 1 ≤ |(n : ℚ) / placesScale p| * 2 ^ 1022 := by
      have hone : (1 : ℚ) ≤ |(n : ℚ)| := one_le_abs_of_ne hne
      have hpow : (10 : ℚ) ^ 15 ≤ 2 ^ 1022 :=
        le_trans (by norm_num : (10 : ℚ) ^ 15 ≤ 2 ^ 50) (pow_le_pow_right₀ one_le_two (by omega))
      rw [abs_div_placesScale, div_mul_eq_mul_div, le_div_iff₀ hS, one_mul]
      calc placesScale p ≤ 10 ^ 15 := placesScale_le p
        _ ≤ 2 ^ 1022 := hpow
        _ ≤ |(n : ℚ)| * 2 ^ 1022 := le_mul_of_one_le_left (pow_nonneg two_pos.le _) hone
    have hoff := abs_nearest_sub_mul_le hnormal
    rw [hn] at hoff
    have hscale : |w * placesScale p - n| = |w - n / placesScale p| * placesScale p := by
      rw [← abs_mul_placesScale, sub_mul, div_mul_cancel₀ _ hS.ne']
    rw [hscale, abs_mul_placesScale, mul_right_comm]
    exact mul_le_mul_of_nonneg_right hoff hS.le

theorem abs_sub_lt_half (hn : nearest (n / placesScale p) = w) (hw : |w * placesScale p| < 2 ^ 52) :
    |w * placesScale p - n| < 1 / 2 := by
  linarith [abs_sub_mul_le hn]

theorem floor_eq_of_abs_sub_lt (h : |x - n| < 1 / 2) : ⌊x + 1 / 2⌋ = n := by
  obtain ⟨hlo, hhi⟩ := abs_lt.mp h
  rw [Int.floor_eq_iff]
  constructor <;> linarith

theorem abs_nudged_le (hw : Representable w) : |nearest (w + 1 / 2 ^ 52)| ≤ |w| + 2 / 2 ^ 52 := by
  have hoff := abs_nudged_sub_le hw
  have hdiff := abs_sub_abs_le_abs_sub (nearest (w + 1 / 2 ^ 52)) (w + 1 / 2 ^ 52)
  have hsum := abs_add_le w (1 / 2 ^ 52)
  rw [abs_of_pos (a := (1 : ℚ) / 2 ^ 52) (by norm_num)] at hsum
  linarith

/-- The last number below the cut-off. -/
theorem representable_limit_pred : Representable (2 ^ 53 - 1) := by
  have h := representable_ofNat (k := 2 ^ 53 - 1) (by norm_num)
  norm_num at h ⊢
  exact h

/-- What keeps an integer away from the cut-off stays below it when it is rounded. -/
theorem abs_nearest_lt_limit (h : |x| ≤ 2 ^ 53 - 1) : |nearest x| < 2 ^ 53 :=
  (abs_nearest_le representable_limit_pred h).trans_lt (by norm_num)

/-- The scaled value stays below the cut-off. -/
theorem abs_scaledValue_lt (hw : Representable w) (h : |w * placesScale p| < 2 ^ 52) :
    |scaledValue w p| < 2 ^ 53 := by
  have hS := placesScale_pos p
  apply abs_nearest_lt_limit
  rw [abs_mul_placesScale] at h ⊢
  have h1 := mul_le_mul_of_nonneg_right (abs_nudged_le hw) hS.le
  have h2 := placesScale_le p
  rw [add_mul] at h1
  linarith

theorem placesValue_eq_or (x : ℚ) (p : ℕ) :
    2 ^ 53 ≤ |scaledValue x p| ∧ placesValue x p = x ∨
      ∃ n : ℤ, |n| ≤ 2 ^ 53 ∧ placesValue x p = nearest (n / placesScale p) := by
  rcases lt_or_ge |scaledValue x p| (2 ^ 53) with h | h
  · exact Or.inr ⟨_, abs_floor_le h.le, if_pos h⟩
  · exact Or.inl ⟨h, if_neg (not_lt.mpr h)⟩

/-- What is large lies beyond the reach of the nudge. -/
theorem scaledValue_of_large (hw : Representable w) (h : 2 ^ 52 ≤ |w * placesScale p|) :
    4 < |w| ∧ scaledValue w p = nearest (w * placesScale p) := by
  have hfour : 4 < |w| := by
    rw [abs_mul_placesScale] at h
    by_contra hlt
    have := mul_le_mul (not_lt.mp hlt) (placesScale_le p) (placesScale_pos p).le (by norm_num)
    linarith
  exact ⟨hfour, by rw [scaledValue, nearest_add_epsilon hw hfour]⟩

/-- So does all that is beyond the cut-off. -/
theorem scaledValue_of_cutoff (hw : Representable w) (h : 2 ^ 53 ≤ |scaledValue w p|) :
    4 < |w| ∧ scaledValue w p = nearest (w * placesScale p) := by
  apply scaledValue_of_large hw
  by_contra hlt
  exact absurd h (not_le.mpr (abs_scaledValue_lt hw (not_le.mp hlt)))

/-- The scaled value of a large number is an integer, so only the division is left to round. -/
theorem exists_int_of_large (hw : Representable w) (h : 2 ^ 52 ≤ |w * placesScale p|)
    (hlt : |scaledValue w p| < 2 ^ 53) : ∃ k : ℤ, nearest (w * placesScale p) = k ∧
      placesValue w p = nearest (k / placesScale p) := by
  have hlimit : Representable (2 ^ 52) := representable_two_pow (by omega)
  have hsize : 2 ^ 52 ≤ |nearest (w * placesScale p)| := le_abs_nearest hlimit h
  obtain ⟨k, hk⟩ := (representable_nearest (w * placesScale p)).exists_int_mul (e := 0)
    (by omega) (by rwa [pow_zero, mul_one])
  rw [pow_zero, mul_one] at hk
  refine ⟨k, hk, ?_⟩
  rw [placesValue, if_pos hlt, (scaledValue_of_large hw h).2, hk,
    floor_eq_of_abs_sub_lt (n := k) (by simp)]

/-- At the end of a binade a large number is an integer, and what it is scaled to is exact. -/
theorem representable_scaled (hw : Representable w) (hr : rankOf w % binade = 0)
    (h : 2 ^ 52 ≤ |w * placesScale p|) (hlt : |scaledValue w p| < 2 ^ 53) :
    Representable (w * placesScale p) := by
  obtain ⟨hfour, hscaled⟩ := scaledValue_of_large hw h
  obtain ⟨j, hj⟩ := hw.exists_int_of_boundary hr (by linarith)
  have hint : w * placesScale p = ((j * 10 ^ min p maxPrecision : ℤ) : ℚ) := by
    rw [hj, placesScale]
    push_cast
    rfl
  rw [hint]
  apply representable_int
  by_contra hgt
  have hgt' : (2 : ℚ) ^ 53 ≤ |w * placesScale p| := by
    rw [hint]
    exact_mod_cast (not_le.mp hgt).le
  rw [hscaled] at hlt
  exact absurd (le_abs_nearest (representable_two_pow le_rfl) hgt') (not_le.mpr hlt)

/-- The integer nearest to a scaled number is at least as near as the one the number was made
from, so away from the ends of a binade both quotients are rounded to it. -/
theorem nearest_div_eq {k : ℤ} (hn : |n| ≤ 2 ^ 53) (hnw : nearest (n / placesScale p) = w)
    (hr : rankOf (n / placesScale p) % binade ≠ 0) (hk : nearest (w * placesScale p) = k) :
    nearest (k / placesScale p) = w := by
  have hS := placesScale_pos p
  have hnear : |(k : ℚ) - w * placesScale p| ≤ |n - w * placesScale p| := by
    rw [← hk]
    exact abs_nearest_sub_le_abs_sub _ (representable_int hn)
  have hscale : ∀ i : ℤ,
      |(i : ℚ) / placesScale p - w| = |i - w * placesScale p| / placesScale p := by
    intro i
    rw [div_sub' hS.ne', abs_div_placesScale, mul_comm w]
  rw [← hnw] at hnear hscale ⊢
  apply nearest_eq_of_abs_sub_le hr
  rw [hscale, hscale]
  exact div_le_div_of_nonneg_right hnear hS.le

/-- A large result is steady. A power of two needs an argument of its own, for the numbers below
it are nearer than those above. -/
theorem placesValue_of_large (hw : placesValue x p = w)
    (h : 2 ^ 52 ≤ |w * placesScale p|) : placesValue w p = w := by
  rcases placesValue_eq_or x p with ⟨-, hxw⟩ | ⟨n, hn, hnw⟩
  · rw [hw] at hxw
    rwa [← hxw] at hw
  rw [hw] at hnw
  have hrep : Representable w := hnw ▸ representable_nearest _
  rcases lt_or_ge |scaledValue w p| (2 ^ 53) with hlt | hge
  · obtain ⟨k, hk, hplaces⟩ := exists_int_of_large hrep h hlt
    rw [hplaces]
    by_cases hr : rankOf (n / placesScale p) % binade = 0
    · rw [← rankOf_nearest, ← hnw] at hr
      have hexact := representable_scaled hrep hr h hlt
      rw [← hk, nearest_eq_self hexact, mul_div_cancel_right₀ _ (placesScale_pos p).ne',
        nearest_eq_self hrep]
    · exact nearest_div_eq hn hnw.symm hr hk
  · exact if_neg (not_lt.mpr hge)

/-- A result that is not large is a quotient by the scale. -/
theorem exists_quotient (hx : Representable x) (hw : placesValue x p = w)
    (h : |w * placesScale p| < 2 ^ 52) :
    Representable w ∧ |scaledValue w p| < 2 ^ 53 ∧ ∃ n : ℤ, nearest (n / placesScale p) = w := by
  have hrep : Representable w := by
    rcases placesValue_eq_or x p with ⟨-, hxw⟩ | ⟨n, -, hnw⟩
    · rwa [← hw, hxw]
    · rw [← hw, hnw]
      exact representable_nearest _
  have hbelow := abs_scaledValue_lt hrep h
  refine ⟨hrep, hbelow, ?_⟩
  rcases placesValue_eq_or x p with ⟨hge, hxw⟩ | ⟨n, -, hnw⟩
  · rw [hw] at hxw
    exact absurd hge (not_le.mpr (hxw ▸ hbelow))
  · exact ⟨n, hnw.symm.trans hw⟩

/-- A result is left as it is by rounding it again just if it is steady. -/
theorem placesValue_eq_iff (hx : Representable x) (hw : placesValue x p = w) :
    placesValue w p = w ↔ Steady w p := by
  rcases le_or_gt (2 ^ 52) |w * placesScale p| with hlarge | hsmall
  · exact iff_of_true (placesValue_of_large hw hlarge) (Or.inl hlarge)
  obtain ⟨-, hbelow, n, hnw⟩ := exists_quotient hx hw hsmall
  have hfloor : ⌊w * placesScale p + 1 / 2⌋ = n :=
    floor_eq_of_abs_sub_lt (abs_sub_lt_half hnw hsmall)
  rw [Steady, or_iff_right (not_le.mpr hsmall), placesValue, if_pos hbelow]
  constructor
  · intro h
    exact (floor_eq_of_abs_sub_lt (abs_sub_lt_half h hsmall)).symm
  · intro h
    rw [h, hfloor, hnw]

/-- A quotient by the scale keeps clear of the nudge. -/
theorem nudged_normal (hn : nearest (n / placesScale p) = w) : 1 ≤ |w + 1 / 2 ^ 52| * 2 ^ 1022 := by
  have hS := placesScale_pos p
  have hsmall : (1 : ℚ) / 2 ^ 52 ≤ |w + 1 / 2 ^ 52| := by
    rcases eq_or_ne n 0 with rfl | hne
    · rw [Int.cast_zero, zero_div, nearest_eq_self ⟨0, by simp⟩] at hn
      rw [← hn, zero_add]
      exact le_abs_self _
    · have hrep : Representable (1 / 2 ^ 50) := representable_halvings (by omega)
      have hle : 1 / 2 ^ 50 ≤ |w| := by
        rw [← hn]
        apply le_abs_nearest hrep
        have hone : (1 : ℚ) ≤ |(n : ℚ)| := one_le_abs_of_ne hne
        have hscale := placesScale_le p
        rw [abs_div_placesScale, le_div_iff₀ hS]
        linarith
      have h := abs_sub_abs_le_abs_sub w (-(1 / 2 ^ 52))
      rw [abs_neg, abs_of_pos (a := (1 : ℚ) / 2 ^ 52) (by norm_num), sub_neg_eq_add] at h
      linarith
  have hpow : (2 : ℚ) ^ 52 ≤ 2 ^ 1022 := pow_le_pow_right₀ one_le_two (by omega)
  calc (1 : ℚ) = 1 / 2 ^ 52 * 2 ^ 52 := by norm_num
    _ ≤ |w + 1 / 2 ^ 52| * 2 ^ 1022 := mul_le_mul hsmall hpow (by norm_num) (abs_nonneg _)

/-- The nudge and the rounding of the sum move a scaled value by less than a third. -/
theorem abs_nudged_sub_lt (hw : Representable w) (hn : nearest (n / placesScale p) = w)
    (h : |w * placesScale p| ≤ 2 ^ 49) :
    |nearest (w + 1 / 2 ^ 52) * placesScale p - w * placesScale p| < 5 / 16 := by
  have hS := placesScale_pos p
  have hscale := placesScale_le p
  have hsum :
      |nearest (w + 1 / 2 ^ 52) * placesScale p - (w + 1 / 2 ^ 52) * placesScale p| ≤ 1 / 15 := by
    have hoff := abs_nearest_sub_mul_le (nudged_normal hn)
    have hsize := mul_le_mul_of_nonneg_right (hoff.trans (abs_nudged_le hw)) hS.le
    rw [abs_mul_placesScale] at h
    rw [← sub_mul, abs_mul_placesScale]
    rw [add_mul] at hsize
    linarith
  have hnudge : 0 < 1 / 2 ^ 52 * placesScale p := by positivity
  obtain ⟨hlo, hhi⟩ := abs_le.mp hsum
  exact abs_lt.mpr ⟨by linarith, by linarith⟩

/-- A result of at most fourteen digits is steady: the nudge and the two roundings together stay
below a half of its last place. -/
theorem steady_of_small (hx : Representable x) (hw : placesValue x p = w)
    (h : |w * placesScale p| ≤ 2 ^ 49) : Steady w p := by
  obtain ⟨hrep, -, n, hnw⟩ := exists_quotient hx hw (h.trans_lt (by norm_num))
  have hn := abs_sub_mul_le hnw
  have hnear : |w * placesScale p - n| ≤ 1 / 16 := by linarith
  obtain ⟨hlo, hhi⟩ := abs_le.mp hnear
  obtain ⟨hnudgedlo, hnudgedhi⟩ := abs_lt.mp (abs_nudged_sub_lt hrep hnw h)
  have hsize : |n| ≤ 2 ^ 49 + 1 := by
    obtain ⟨hwlo, hwhi⟩ := abs_le.mp h
    have h1 : (-(2 ^ 49 + 1) : ℚ) ≤ n := by linarith
    have h2 : (n : ℚ) ≤ 2 ^ 49 + 1 := by linarith
    exact abs_le.mpr ⟨by exact_mod_cast h1, by exact_mod_cast h2⟩
  have hscaled : |scaledValue w p - n| ≤ (3 : ℕ) / 2 ^ 3 := by
    apply abs_nearest_sub_int_le (by omega) (by omega)
    exact abs_le.mpr ⟨by push_cast; linarith, by push_cast; linarith⟩
  right
  rw [floor_eq_of_abs_sub_lt (hscaled.trans_lt (by norm_num)), floor_eq_of_abs_sub_lt (n := n)]
  linarith

end KeypadCalculator.Binary64
