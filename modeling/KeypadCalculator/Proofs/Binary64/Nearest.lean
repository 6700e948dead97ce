import KeypadCalculator.Proofs.Binary64.Ranks
import Mathlib.Algebra.Order.Archimedean.Basic
import Mathlib.Algebra.Order.Field.Rat
import Mathlib.Data.Rat.Cast.Order
import Mathlib.Tactic.FieldSimp
import Mathlib.Tactic.Linarith
import Mathlib.Tactic.NormNum
import Mathlib.Tactic.Positivity

/-! The rank that a quotient is rounded to is the nearest one, and the even one of two. -/

namespace KeypadCalculator.Binary64

variable {x y : ℚ} {k q r s den : ℕ}

/-- No magnitude lies nearer to `x` units than that of the rank, and where another lies as near,
the rank is even. -/
structure IsNearest (x : ℚ) (r : ℕ) : Prop where
  le : ∀ q, |x - units r| ≤ |x - units q|
  even : ∀ q, q ≠ r → |x - units q| = |x - units r| → r % 2 = 0

theorem isNearest_units (r : ℕ) : IsNearest (units r) r := by
  refine ⟨fun q => by simp, ?_⟩
  intro q hq he
  rw [sub_self, abs_zero, abs_eq_zero, sub_eq_zero, Nat.cast_inj] at he
  exact absurd (units_strictMono.injective he).symm hq

theorem units_cast_lt (h : q < r) : (units q : ℚ) < units r := Nat.cast_lt.mpr (units_strictMono h)

/-- Of two magnitudes the larger one is nearest only past their midpoint. -/
theorem IsNearest.midpoint_le (h : IsNearest x r) (hq : q < r) : units q + units r ≤ 2 * x := by
  have hlt := units_cast_lt hq
  have hle := h.le q
  rcases le_total x (units q) with hx | hx
  · rw [abs_of_nonpos (by linarith), abs_of_nonpos (by linarith)] at hle
    linarith
  · rw [abs_of_nonneg (a := x - units q) (by linarith)] at hle
    linarith [neg_abs_le (x - units r)]

theorem IsNearest.le_midpoint (h : IsNearest x r) (hq : r < q) : 2 * x ≤ units r + units q := by
  have hlt := units_cast_lt hq
  have hle := h.le q
  rcases le_total x (units q) with hx | hx
  · rw [abs_of_nonpos (a := x - units q) (by linarith)] at hle
    linarith [le_abs_self (x - units r)]
  · rw [abs_of_nonneg (by linarith), abs_of_nonneg (by linarith)] at hle
    linarith

theorem IsNearest.mono_of_lt (hx : IsNearest x r) (hy : IsNearest y q) (h : x < y) : r ≤ q := by
  by_contra hlt
  have hlo := hx.midpoint_le (Nat.not_le.mp hlt)
  have hhi := hy.le_midpoint (Nat.not_le.mp hlt)
  linarith

/-- Neighbours differ in parity, so only one of them is nearest. -/
theorem IsNearest.not_lt (hr : IsNearest x r) (hq : IsNearest x q) : ¬ r < q := by
  intro hlt
  have hdist : |x - units q| = |x - units r| := le_antisymm (hq.le r) (hr.le q)
  have hr2 := hr.even q (by omega) hdist
  have hq2 := hq.even r (by omega) hdist.symm
  have hlo := hq.midpoint_le (q := r + 1) (by omega)
  have hhi := hr.le_midpoint hlt
  have := units_cast_lt (show r < r + 1 by omega)
  linarith

theorem IsNearest.unique (hr : IsNearest x r) (hq : IsNearest x q) : r = q :=
  Nat.le_antisymm (Nat.not_lt.mp (hq.not_lt hr)) (Nat.not_lt.mp (hr.not_lt hq))

theorem IsNearest.mono (hx : IsNearest x r) (hy : IsNearest y q) (h : x ≤ y) : r ≤ q := by
  rcases h.lt_or_eq with h | rfl
  · exact hx.mono_of_lt hy h
  · exact (hx.unique hy).le

/-- A magnitude is off by half its gap at most. -/
theorem IsNearest.abs_sub_le (h : IsNearest x r) (hx : 0 ≤ x) : 2 * |x - units r| ≤ gap r := by
  have hhi := h.le_midpoint (Nat.lt_succ_self r)
  rw [units_succ, Nat.cast_add] at hhi
  rcases Nat.eq_zero_or_pos r with rfl | hr
  · rw [units_zero, Nat.cast_zero] at hhi ⊢
    rw [sub_zero, abs_of_nonneg hx]
    linarith
  · obtain ⟨q, rfl⟩ := Nat.exists_eq_add_of_le' hr
    have hlo := h.midpoint_le (Nat.lt_succ_self q)
    have hgap : (gap q : ℚ) ≤ gap (q + 1) := by exact_mod_cast gap_mono (Nat.le_succ q)
    have hstep : (units (q + 1) : ℚ) = units q + gap q := by exact_mod_cast units_succ q
    have habs : |x - units (q + 1)| ≤ gap (q + 1) / 2 := abs_le.mpr ⟨by linarith, by linarith⟩
    linarith

/-- Away from the ends of a binade, every other magnitude is a gap away at least. -/
theorem gap_le_abs_sub (hr : r % binade ≠ 0) (hq : q ≠ r) :
    (gap r : ℚ) ≤ |(units q : ℚ) - units r| := by
  rcases Nat.lt_or_gt_of_ne hq with hlt | hlt
  · obtain ⟨p, rfl⟩ := Nat.exists_eq_add_of_le' (Nat.zero_lt_of_lt hlt)
    have hgap : gap p = gap (p + 1) := gap_pred hr
    have hstep : (units (p + 1) : ℚ) = units p + gap (p + 1) := by
      rw [← hgap]
      exact_mod_cast units_succ p
    have hle : (units q : ℚ) ≤ units p := by
      exact_mod_cast units_strictMono.monotone (Nat.lt_succ_iff.mp hlt)
    rw [abs_sub_comm]
    exact le_trans (by linarith) (le_abs_self _)
  · have hstep : (units (r + 1) : ℚ) = units r + gap r := by exact_mod_cast units_succ r
    have hle : (units (r + 1) : ℚ) ≤ units q := by
      exact_mod_cast units_strictMono.monotone (Nat.succ_le_of_lt hlt)
    exact le_trans (by linarith) (le_abs_self _)

/-- Away from the ends of a binade, just the numbers within half a gap have a rank as nearest one;
those at half a gap only when it is even. -/
theorem isNearest_iff_abs (hr : r % binade ≠ 0) :
    IsNearest x r ↔ 2 * |x - units r| ≤ gap r ∧ (2 * |x - units r| = gap r → r % 2 = 0) := by
  obtain ⟨q, rfl⟩ : ∃ q, r = q + 1 := Nat.exists_eq_succ_of_ne_zero (by rintro rfl; exact hr rfl)
  have hgap : gap q = gap (q + 1) := gap_pred hr
  have hlo : (units (q + 1) : ℚ) = units q + gap (q + 1) := by
    rw [← hgap]
    exact_mod_cast units_succ q
  have hhi : (units (q + 2) : ℚ) = units (q + 1) + gap (q + 1) := by
    exact_mod_cast units_succ (q + 1)
  constructor
  · intro h
    have hmid := h.midpoint_le (Nat.lt_succ_self q)
    have hmid' := h.le_midpoint (Nat.lt_succ_self (q + 1))
    constructor
    · have : |x - units (q + 1)| ≤ gap (q + 1) / 2 := abs_le.mpr ⟨by linarith, by linarith⟩
      linarith
    · intro he
      rcases abs_choice (x - units (q + 1)) with ha | ha <;> rw [ha] at he
      · apply h.even (q + 2) (by omega)
        rw [hhi, ha, abs_of_nonpos (by linarith)]
        linarith
      · apply h.even q (by omega)
        rw [ha, abs_of_nonneg (by linarith)]
        linarith
  · rintro ⟨hle, heven⟩
    have htriangle : ∀ p,
        |(units p : ℚ) - units (q + 1)| ≤ |x - units p| + |x - units (q + 1)| := by
      intro p
      rw [abs_sub_comm x (units p)]
      exact abs_sub_le _ _ _
    constructor
    · intro p
      rcases eq_or_ne p (q + 1) with rfl | hp
      · exact le_rfl
      · linarith [gap_le_abs_sub hr hp, htriangle p]
    · intro p hp he
      apply heven
      linarith [gap_le_abs_sub hr hp, htriangle p]

/-- A natural number within a half of `y`, and an even one at just a half. -/
def IsHalfEven (y : ℚ) (k : ℕ) : Prop := |y - k| ≤ 1 / 2 ∧ (|y - k| = 1 / 2 → k % 2 = 0)

theorem one_le_abs_sub {j k : ℕ} (h : j ≠ k) : (1 : ℚ) ≤ |(j : ℚ) - k| := by
  have : (1 : ℤ) ≤ |(j : ℤ) - k| := Int.one_le_abs (sub_ne_zero.mpr (by exact_mod_cast h))
  exact_mod_cast this

theorem IsHalfEven.le (h : IsHalfEven y k) (j : ℕ) : |y - k| ≤ |y - j| := by
  rcases eq_or_ne j k with rfl | hne
  · exact le_rfl
  · have := abs_sub_le (j : ℚ) y k
    rw [abs_sub_comm (j : ℚ) y] at this
    linarith [one_le_abs_sub hne, h.1]

theorem IsHalfEven.even {j : ℕ} (h : IsHalfEven y k) (hne : j ≠ k) (he : |y - j| = |y - k|) :
    k % 2 = 0 := by
  have := abs_sub_le (j : ℚ) y k
  rw [abs_sub_comm (j : ℚ) y, he] at this
  exact h.2 (le_antisymm h.1 (by linarith [one_le_abs_sub hne]))

theorem roundHalfEven_bounds (num den : ℕ) :
    num / den ≤ roundHalfEven num den ∧ roundHalfEven num den ≤ num / den + 1 := by
  unfold roundHalfEven
  dsimp only
  split
  · omega
  · split <;> omega

theorem isHalfEven_roundHalfEven (num : ℕ) (hden : 0 < den) :
    IsHalfEven ((num : ℚ) / den) (roundHalfEven num den) := by
  have hd : (0 : ℚ) < den := by exact_mod_cast hden
  have hdiv : (num : ℚ) / den = (num / den : ℕ) + ((num % den : ℕ) : ℚ) / den := by
    rw [eq_comm, add_div' _ _ _ hd.ne', div_left_inj' hd.ne']
    exact_mod_cast Nat.div_add_mod' num den
  have hlt : ((num % den : ℕ) : ℚ) / den < 1 := by
    rw [div_lt_one hd]
    exact_mod_cast Nat.mod_lt num hden
  have hnn : 0 ≤ ((num % den : ℕ) : ℚ) / den := by positivity
  have hhalf : ∀ a : ℕ, 2 * a < den ↔ (a : ℚ) / den < 1 / 2 := by
    intro a
    rw [div_lt_div_iff₀ hd two_pos, one_mul, mul_comm]
    exact_mod_cast Iff.rfl
  have hhalf' : ∀ a : ℕ, den < 2 * a ↔ 1 / 2 < (a : ℚ) / den := by
    intro a
    rw [div_lt_div_iff₀ two_pos hd, one_mul, mul_comm (a : ℚ)]
    exact_mod_cast Iff.rfl
  rw [hdiv, IsHalfEven]
  unfold roundHalfEven
  dsimp only
  split
  · next h =>
    have h' := (hhalf _).mp h
    rw [add_sub_cancel_left, abs_of_nonneg hnn]
    exact ⟨h'.le, fun he => absurd he h'.ne⟩
  split
  · next h =>
    have h' := (hhalf' _).mp h
    rw [Nat.cast_succ, add_sub_add_left_eq_sub, abs_of_neg (by linarith)]
    exact ⟨by linarith, fun he => by linarith⟩
  · next hlo hhi =>
    have h : ((num % den : ℕ) : ℚ) / den = 1 / 2 :=
      le_antisymm (not_lt.mp fun h => hhi ((hhalf' _).mpr h))
        (not_lt.mp fun h => hlo ((hhalf _).mpr h))
    rw [h]
    rcases Nat.mod_two_eq_zero_or_one (num / den) with he | he <;> rw [he]
    · refine ⟨?_, fun _ => by omega⟩
      rw [Nat.add_zero, add_sub_cancel_left]
      norm_num
    · refine ⟨?_, fun _ => by omega⟩
      rw [Nat.cast_succ, add_sub_add_left_eq_sub]
      norm_num

/-- A coefficient of 53 bits decides the rank. Magnitudes that are no multiples of the shift lie
below the binade of the coefficient. -/
theorem IsHalfEven.isNearest (h : IsHalfEven y k) (hk : k ≤ 2 * binade)
    (hs : s = 0 ∨ binade ≤ k ∧ (binade : ℚ) ≤ y) :
    IsNearest (y * (2 ^ s : ℕ)) (s * binade + k) := by
  have hu : (0 : ℚ) < (2 ^ s : ℕ) := by exact_mod_cast Nat.two_pow_pos s
  have hunits : units (s * binade + k) = k * 2 ^ s := units_shift hk (hs.imp_right And.left)
  have hdist : ∀ j : ℕ, |y * (2 ^ s : ℕ) - (j * 2 ^ s : ℕ)| = |y - j| * (2 ^ s : ℕ) := by
    intro j
    rw [Nat.cast_mul, ← sub_mul, abs_mul, abs_of_pos hu]
  have hmult : ∀ q, s = 0 ∨ (s + 1) * binade ≤ q → ∃ j, units q = j * 2 ^ s := by
    rintro q (rfl | hq)
    · exact ⟨units q, by rw [pow_zero, Nat.mul_one]⟩
    · obtain ⟨j, hj⟩ := dvd_units hq
      exact ⟨j, by rw [hj, Nat.mul_comm]⟩
  have hbelow : ∀ q, ¬ (s = 0 ∨ (s + 1) * binade ≤ q) →
      |y * (2 ^ s : ℕ) - units (s * binade + k)| < |y * (2 ^ s : ℕ) - units q| := by
    intro q hq
    obtain ⟨hs0, hlt⟩ := not_or.mp hq
    have hbase : units ((s + 1) * binade + 0) = binade * 2 ^ s := units_binade s binade_pos
    have hq' : (units q : ℚ) < (binade * 2 ^ s : ℕ) := by
      rw [← hbase]
      exact units_cast_lt (by omega)
    have hx : ((binade * 2 ^ s : ℕ) : ℚ) ≤ y * (2 ^ s : ℕ) := by
      rw [Nat.cast_mul]
      exact mul_le_mul_of_nonneg_right (hs.resolve_left hs0).2 hu.le
    calc |y * (2 ^ s : ℕ) - units (s * binade + k)|
        ≤ |y * (2 ^ s : ℕ) - (binade * 2 ^ s : ℕ)| := by
          rw [hunits, hdist, hdist]
          exact mul_le_mul_of_nonneg_right (h.le binade) hu.le
      _ = y * (2 ^ s : ℕ) - (binade * 2 ^ s : ℕ) := abs_of_nonneg (by linarith)
      _ < y * (2 ^ s : ℕ) - units q := by linarith
      _ ≤ |y * (2 ^ s : ℕ) - units q| := le_abs_self _
  constructor
  · intro q
    by_cases hq : s = 0 ∨ (s + 1) * binade ≤ q
    · obtain ⟨j, hj⟩ := hmult q hq
      rw [hunits, hj, hdist, hdist]
      exact mul_le_mul_of_nonneg_right (h.le j) hu.le
    · exact (hbelow q hq).le
  · intro q hne he
    by_cases hq : s = 0 ∨ (s + 1) * binade ≤ q
    · obtain ⟨j, hj⟩ := hmult q hq
      rw [hunits, hj, hdist, hdist] at he
      have hjk : j ≠ k := by
        rintro rfl
        exact hne (units_strictMono.injective (hj.trans hunits.symm))
      have heven := h.even hjk (mul_right_cancel₀ hu.ne' he)
      have := binade_even
      rw [Nat.add_mod, Nat.mul_mod, this, heven, Nat.mul_zero]
    · exact absurd he (hbelow q hq).ne'

/-- The shift leaves a coefficient of at most 53 bits, and of all 53 unless it is zero. -/
theorem shift_bounds (q : ℕ) :
    q / 2 ^ (q.log2 - 52) < 2 * binade ∧
      (q.log2 - 52 = 0 ∨ binade ≤ q / 2 ^ (q.log2 - 52)) := by
  constructor
  · apply Nat.div_lt_of_lt_mul
    calc q < 2 ^ (q.log2 + 1) := Nat.lt_log2_self
      _ ≤ 2 ^ (q.log2 - 52 + 53) := Nat.pow_le_pow_right (by decide) (by omega)
      _ = 2 ^ (q.log2 - 52) * (2 * binade) := Nat.pow_add ..
  · rcases Nat.eq_zero_or_pos (q.log2 - 52) with h | h
    · exact Or.inl h
    · refine Or.inr ((Nat.le_div_iff_mul_le (Nat.two_pow_pos _)).mpr ?_)
      have hq : q ≠ 0 := by
        rintro rfl
        exact absurd h (by decide)
      calc binade * 2 ^ (q.log2 - 52) = 2 ^ (52 + (q.log2 - 52)) := (Nat.pow_add ..).symm
        _ = 2 ^ q.log2 := by rw [show 52 + (q.log2 - 52) = q.log2 by omega]
        _ ≤ q := Nat.log2_self_le hq

theorem isNearest_nearestRank (num : ℕ) (hden : 0 < den) :
    IsNearest ((num : ℚ) / den) (nearestRank num den) := by
  obtain ⟨hhi, hlo⟩ := shift_bounds (num / den)
  rw [nearestRank]
  simp only [Nat.pow_eq]
  generalize (num / den).log2 - 52 = s at hhi hlo ⊢
  have hpos : 0 < den * 2 ^ s := Nat.mul_pos hden (Nat.two_pow_pos s)
  obtain ⟨hk, hk'⟩ := roundHalfEven_bounds num (den * 2 ^ s)
  rw [← Nat.div_div_eq_div_mul] at hk hk'
  have hscale : (num : ℚ) / den = (num : ℚ) / (den * 2 ^ s : ℕ) * (2 ^ s : ℕ) := by
    rw [Nat.cast_mul, ← div_div, div_mul_cancel₀]
    exact_mod_cast (Nat.two_pow_pos s).ne'
  rw [hscale]
  apply (isHalfEven_roundHalfEven num hpos).isNearest (by omega)
  refine hlo.imp_right fun h => ⟨h.trans hk, ?_⟩
  rw [Nat.div_div_eq_div_mul, Nat.le_div_iff_mul_le hpos] at h
  rw [le_div_iff₀ (by exact_mod_cast hpos)]
  exact_mod_cast h

end KeypadCalculator.Binary64
