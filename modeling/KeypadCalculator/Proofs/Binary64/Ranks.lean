import KeypadCalculator.Binary64.Basic
import Mathlib.Order.Monotone.Basic
import Mathlib.Tactic.Ring

/-! Ranks order the magnitudes. Two neighbours lie a power of two apart. -/

namespace KeypadCalculator.Binary64

variable {r s k : ℕ}

theorem binade_pos : 0 < binade := Nat.two_pow_pos 52

theorem binade_even : binade % 2 = 0 := rfl

/-- The exponent stays a variable, for its power is not to be computed. -/
theorem exists_unitsPerOne : ∃ e, e = 1074 ∧ unitsPerOne = 2 ^ e := by
  unfold unitsPerOne
  generalize 1074 = n
  exact ⟨n, rfl, rfl⟩

theorem unitsPerOne_eq {e : ℕ} (h : e ≤ 1074) : unitsPerOne = 2 ^ e * 2 ^ (1074 - e) := by
  obtain ⟨n, hn, hunits⟩ := exists_unitsPerOne
  rw [← hn] at h ⊢
  rw [hunits, ← Nat.pow_add, Nat.add_sub_cancel' h]

theorem unitsPerOne_dvd (h : unitsPerOne ≤ 2 ^ k) : unitsPerOne ∣ 2 ^ k := by
  obtain ⟨n, -, hunits⟩ := exists_unitsPerOne
  rw [hunits] at h ⊢
  exact pow_dvd_pow 2 ((Nat.pow_le_pow_iff_right Nat.one_lt_two).mp h)

/-- How far the next larger magnitude lies. -/
def gap (r : ℕ) : ℕ := 2 ^ (r / binade - 1)

theorem units_of_lt (h : r < binade) : units r = r := if_pos h

theorem units_of_le (h : binade ≤ r) : units r = (binade + r % binade) * gap r :=
  if_neg (Nat.not_lt.mpr h)

theorem gap_of_lt (h : r < 2 * binade) : gap r = 1 := by
  have hr : r / binade < 2 := Nat.div_lt_of_lt_mul (by omega)
  rw [gap, show r / binade - 1 = 0 by omega, pow_zero]

/-- Within a binade the magnitudes are the multiples of its gap. -/
theorem units_binade (s : ℕ) (hk : k < binade) :
    units ((s + 1) * binade + k) = (binade + k) * 2 ^ s := by
  have hdiv : ((s + 1) * binade + k) / binade = s + 1 := by
    rw [Nat.mul_comm, Nat.mul_add_div binade_pos, Nat.div_eq_of_lt hk, Nat.add_zero]
  have hmod : ((s + 1) * binade + k) % binade = k := by
    rw [Nat.mul_comm, Nat.mul_add_mod, Nat.mod_eq_of_lt hk]
  have hle : binade ≤ (s + 1) * binade + k := by
    rw [Nat.succ_mul]
    omega
  rw [units_of_le hle, gap, hdiv, hmod, Nat.add_sub_cancel]

theorem exists_binade (h : binade ≤ r) : ∃ s k, k < binade ∧ r = (s + 1) * binade + k := by
  have hpos : 1 ≤ r / binade := (Nat.le_div_iff_mul_le binade_pos).mpr (by omega)
  refine ⟨r / binade - 1, r % binade, Nat.mod_lt _ binade_pos, ?_⟩
  rw [Nat.sub_add_cancel hpos, Nat.div_add_mod']

theorem gap_binade (s : ℕ) (hk : k < binade) : gap ((s + 1) * binade + k) = 2 ^ s := by
  rw [gap, Nat.mul_comm, Nat.mul_add_div binade_pos, Nat.div_eq_of_lt hk]
  rfl

theorem units_succ (r : ℕ) : units (r + 1) = units r + gap r := by
  have hpos := binade_pos
  by_cases hr : r + 1 < binade
  · rw [units_of_lt hr, units_of_lt (by omega), gap_of_lt (by omega)]
  by_cases hle : binade ≤ r
  · obtain ⟨s, k, hk, rfl⟩ := exists_binade hle
    rw [units_binade s hk, gap_binade s hk]
    by_cases hcarry : k + 1 < binade
    · rw [Nat.add_assoc, units_binade s hcarry]
      ring
    · obtain rfl : k = binade - 1 := by omega
      have hnext : (s + 1) * binade + (binade - 1) + 1 = (s + 1 + 1) * binade + 0 := by
        rw [Nat.succ_mul (s + 1)]
        omega
      rw [hnext, units_binade (s + 1) hpos, Nat.add_zero, Nat.pow_succ]
      have : binade + (binade - 1) + 1 = binade * 2 := by omega
      calc binade * (2 ^ s * 2) = (binade * 2) * 2 ^ s := by ring
        _ = (binade + (binade - 1)) * 2 ^ s + 2 ^ s := by rw [← this]; ring
  · have hr' : r + 1 = (0 + 1) * binade + 0 := by omega
    rw [gap_of_lt (by omega), units_of_lt (r := r) (by omega), hr', units_binade 0 hpos]
    omega

theorem gap_pos (r : ℕ) : 0 < gap r := Nat.two_pow_pos _

theorem units_strictMono : StrictMono units :=
  strictMono_nat_of_lt_succ fun r => by
    rw [units_succ]
    exact Nat.lt_add_of_pos_right (gap_pos r)

theorem gap_mono : Monotone gap := fun _ _ h =>
  Nat.pow_le_pow_right two_pos (Nat.sub_le_sub_right (Nat.div_le_div_right h) 1)

@[simp] theorem units_zero : units 0 = 0 := rfl

/-- The gap is small beside a magnitude that is not subnormal. -/
theorem gap_mul_le (h : binade ≤ r) : gap r * binade ≤ units r := by
  rw [units_of_le h, Nat.mul_comm]
  exact Nat.mul_le_mul_right _ (Nat.le_add_right _ _)

/-- And no magnitude has a coefficient of more than 53 bits. -/
theorem units_succ_le (r : ℕ) : units (r + 1) ≤ 2 * binade * gap r := by
  rw [units_succ]
  rcases Nat.lt_or_ge r binade with h | h
  · rw [units_of_lt h, gap_of_lt (by omega)]
    omega
  · have := Nat.mod_lt r binade_pos
    rw [units_of_le h, ← Nat.succ_mul]
    exact Nat.mul_le_mul_right _ (by omega)

theorem units_binade_self : units binade = binade := by
  have := binade_pos
  rw [units_of_le le_rfl, Nat.mod_self, gap_of_lt (by omega), Nat.mul_one, Nat.add_zero]

theorem gap_le_units (h : 0 < r) : gap r ≤ units r := by
  rcases Nat.lt_or_ge r binade with hr | hr
  · rw [units_of_lt hr, gap_of_lt (by omega)]
    exact h
  · exact (Nat.le_mul_of_pos_right _ binade_pos).trans (gap_mul_le hr)

/-- The first rank of a binade, the first two apart, is the only one with a smaller gap below. -/
theorem gap_pred (h : r % binade ≠ 0) : gap (r - 1) = gap r := by
  have hdiv : (r - 1) / binade = r / binade := by
    have hlt := Nat.mod_lt r binade_pos
    have hr : r - 1 = binade * (r / binade) + (r % binade - 1) := by
      conv_lhs => rw [← Nat.div_add_mod r binade]
      omega
    have hsmall : (r % binade - 1) / binade = 0 := Nat.div_eq_of_lt (by omega)
    rw [hr, Nat.mul_add_div binade_pos, hsmall, Nat.add_zero]
  rw [gap, gap, hdiv]

theorem dvd_units (h : (s + 1) * binade ≤ r) : 2 ^ s ∣ units r := by
  have hs : s + 1 ≤ r / binade := (Nat.le_div_iff_mul_le binade_pos).mpr h
  have hle : binade ≤ r := le_trans (Nat.le_mul_of_pos_left _ (Nat.succ_pos s)) h
  rw [units_of_le hle, gap]
  exact dvd_mul_of_dvd_right (pow_dvd_pow 2 (by omega)) _

/-- A magnitude that is large beside a power of two is a multiple of it. -/
theorem dvd_units_of_le (h : binade * 2 ^ s ≤ units r) : 2 ^ s ∣ units r := by
  apply dvd_units
  have := units_binade s (k := 0) binade_pos
  rw [Nat.add_zero, Nat.add_zero] at this
  rw [← this] at h
  exact units_strictMono.le_iff_le.mp h

/-- A rank from a coefficient of up to 53 bits and its power of two. A carry out of the 53 bits
gives the first rank of the next binade. -/
theorem units_shift (hk : k ≤ 2 * binade) (hs : s = 0 ∨ binade ≤ k) :
    units (s * binade + k) = k * 2 ^ s := by
  have hpos := binade_pos
  rcases Nat.lt_or_ge k binade with hlt | hle
  · obtain rfl : s = 0 := hs.resolve_right (by omega)
    rw [Nat.zero_mul, Nat.zero_add, units_of_lt hlt, pow_zero, Nat.mul_one]
  · obtain ⟨j, rfl⟩ := Nat.exists_eq_add_of_le hle
    rcases Nat.lt_or_ge j binade with hj | hj
    · rw [show s * binade + (binade + j) = (s + 1) * binade + j by ring, units_binade s hj]
    · obtain rfl : j = binade := by omega
      rw [show s * binade + (binade + binade) = (s + 1 + 1) * binade + 0 by ring,
        units_binade (s + 1) hpos]
      ring

/-- Every multiple of a power of two up to `2^53` times it is a magnitude. -/
theorem exists_units (s : ℕ) (hk : k ≤ 2 * binade) : ∃ r, units r = k * 2 ^ s := by
  induction s generalizing k with
  | zero => exact ⟨0 * binade + k, units_shift hk (Or.inl rfl)⟩
  | succ s ih =>
    rcases Nat.lt_or_ge k binade with hlt | hle
    · obtain ⟨r, hr⟩ := ih (k := 2 * k) (by omega)
      exact ⟨r, by rw [hr]; ring⟩
    · exact ⟨(s + 1) * binade + k, units_shift hk (Or.inr hle)⟩

end KeypadCalculator.Binary64
