import KeypadCalculator.Proofs.Binary64.Line

/-! Every operation on finite numbers is its exact result, rounded. -/

namespace KeypadCalculator.Binary64

variable {a b : Binary64} {x y : ℚ} {r : ℕ}

/-- The number that a finite one stands for. -/
def value : Binary64 → ℚ
  | finite negative rank => if negative then -magnitude rank else magnitude rank
  | _ => 0

/-- The number nearest to `x`, or none that is finite where that one is too large. -/
structure RoundsTo (x : ℚ) (b : Binary64) : Prop where
  isFinite_iff : b.isFinite = true ↔ rankOf x < finiteRanks
  value_eq : b.isFinite = true → b.value = nearest x

theorem isFinite_iff_exists : a.isFinite = true ↔ ∃ s i, a = finite s i := by
  cases a <;> simp [isFinite]

theorem value_mul (s : Bool) (i : Fin finiteRanks) :
    value (finite s i) * unitsPerOne = signed s (units i) := by
  have := magnitude_mul i
  cases s <;> simp [value, signed, neg_mul, this]

theorem abs_value (s : Bool) (i : Fin finiteRanks) : |value (finite s i)| = magnitude i := by
  have := magnitude_nonneg i
  cases s <;> simp [value, abs_of_nonneg this]

theorem representable_value (a : Binary64) : Representable a.value := by
  cases a with
  | nan => exact ⟨0, by simp [value]⟩
  | infinite s => exact ⟨0, by simp [value]⟩
  | finite s i => exact ⟨i, abs_value s i⟩

theorem rankOf_value_lt (a : Binary64) : rankOf a.value < finiteRanks := by
  cases a with
  | nan => simp [value]
  | infinite s => simp [value]
  | finite s i => exact (rankOf_eq (abs_value s i)).trans_lt i.isLt

/-- Only the two zeros have the same value. -/
theorem eq_of_value_eq {s t : Bool} {i j : Fin finiteRanks}
    (h : value (finite s i) = value (finite t j)) : i = j ∧ (s = t ∨ i.val = 0) := by
  have hrank : i = j := by
    have := congrArg rankOf h
    rw [rankOf_eq (abs_value s i), rankOf_eq (abs_value t j)] at this
    exact Fin.ext this
  subst hrank
  refine ⟨rfl, ?_⟩
  rcases Nat.eq_zero_or_pos i with h0 | hpos
  · exact Or.inr h0
  · have hmag : 0 < magnitude i := by
      rw [← magnitude_zero]
      exact magnitude_strictMono hpos
    left
    cases s <;> cases t <;> simp only [value, if_true, if_false, Bool.false_eq_true] at h ⊢ <;>
      linarith

theorem RoundsTo.congr (h : RoundsTo x b) (hxy : x = y) : RoundsTo y b := hxy ▸ h

theorem roundsTo_ofRank {s : Bool} (hr : rankOf x = r) (hs : x ≠ 0 → s = decide (x < 0)) :
    RoundsTo x (ofRank s r) := by
  subst hr
  by_cases hfin : rankOf x < finiteRanks
  · rw [ofRank, dif_pos hfin]
    refine ⟨by simp [isFinite, hfin], ?_⟩
    intro _
    rcases eq_or_ne x 0 with rfl | hx
    · simp [value, nearest]
    · simp only [value, hs hx, nearest, decide_eq_true_eq]
  · rw [ofRank, dif_neg hfin]
    exact ⟨by simp [isFinite, hfin], fun h => by cases h⟩

theorem round_eq {s : Bool} {num den : ℕ} (hden : 0 < den)
    (hx : |x| * unitsPerOne = (num : ℚ) / den) : round s num den = ofRank s (rankOf x) := by
  have h := isNearest_rankOf x
  rw [hx] at h
  rw [round, h.unique (isNearest_nearestRank num hden)]

theorem roundsTo_round {s : Bool} {num den : ℕ} (hden : 0 < den)
    (hx : |x| * unitsPerOne = (num : ℚ) / den) (hs : x ≠ 0 → s = decide (x < 0)) :
    RoundsTo x (round s num den) := by
  rw [round_eq hden hx]
  exact roundsTo_ofRank rfl hs

theorem roundsTo_zero (s : Bool) : RoundsTo 0 (zero s) := by
  refine ⟨by simp [zero, isFinite], ?_⟩
  intro _
  simp [zero, value, nearest]

theorem neg_iff_of_mul {z : ℤ} (h : x * unitsPerOne = z) : x < 0 ↔ z < 0 := by
  rw [← Int.cast_lt_zero (R := ℚ), ← h]
  exact ⟨fun hx => mul_neg_of_neg_of_pos hx unitsPerOne_pos,
    fun hz => neg_of_mul_neg_left hz unitsPerOne_pos.le⟩

theorem roundsTo_add (ha : a.isFinite = true) (hb : b.isFinite = true) :
    RoundsTo (a.value + b.value) (a + b) := by
  obtain ⟨s, i, rfl⟩ := isFinite_iff_exists.mp ha
  obtain ⟨t, j, rfl⟩ := isFinite_iff_exists.mp hb
  have hsum : (value (finite s i) + value (finite t j)) * unitsPerOne =
      (signed s (units i) + signed t (units j) : ℤ) := by
    rw [add_mul, value_mul, value_mul, Int.cast_add]
  change RoundsTo _ (add _ _)
  simp only [add]
  split
  · next h =>
    rw [h, Int.cast_zero, mul_eq_zero_iff_right unitsPerOne_pos.ne'] at hsum
    rw [hsum]
    exact roundsTo_zero _
  · next h =>
    refine roundsTo_round one_pos ?_ fun _ => decide_eq_decide.mpr (neg_iff_of_mul hsum).symm
    rw [Nat.cast_one, div_one, Nat.cast_natAbs, Int.cast_abs, ← hsum, abs_mul,
      abs_of_pos unitsPerOne_pos]

theorem decide_value_neg {s : Bool} {i : Fin finiteRanks} (h : value (finite s i) ≠ 0) :
    decide (value (finite s i) < 0) = s := by
  have hi := magnitude_nonneg i
  cases s with
  | false => exact decide_eq_false (not_lt.mpr hi)
  | true =>
    have hne : -magnitude i ≠ 0 := h
    exact decide_eq_true (lt_of_le_of_ne (neg_nonpos.mpr hi) hne)

theorem decide_mul_neg (hx : x ≠ 0) (hy : y ≠ 0) :
    (decide (x < 0) != decide (y < 0)) = decide (x * y < 0) := by
  rcases hx.lt_or_gt with hx | hx <;> rcases hy.lt_or_gt with hy | hy
  · rw [decide_eq_true hx, decide_eq_true hy, decide_eq_false (mul_pos_of_neg_of_neg hx hy).not_gt]
    rfl
  · rw [decide_eq_true hx, decide_eq_false hy.not_gt, decide_eq_true (mul_neg_of_neg_of_pos hx hy)]
    rfl
  · rw [decide_eq_false hx.not_gt, decide_eq_true hy, decide_eq_true (mul_neg_of_pos_of_neg hx hy)]
    rfl
  · rw [decide_eq_false hx.not_gt, decide_eq_false hy.not_gt,
      decide_eq_false (mul_pos hx hy).not_gt]
    rfl

theorem roundsTo_mul (ha : a.isFinite = true) (hb : b.isFinite = true) :
    RoundsTo (a.value * b.value) (a * b) := by
  obtain ⟨s, i, rfl⟩ := isFinite_iff_exists.mp ha
  obtain ⟨t, j, rfl⟩ := isFinite_iff_exists.mp hb
  change RoundsTo _ (mul _ _)
  simp only [mul]
  apply roundsTo_round (by exact_mod_cast unitsPerOne_pos)
  · rw [abs_mul, abs_value, abs_value, Nat.cast_mul, ← magnitude_mul, ← magnitude_mul,
      eq_div_iff unitsPerOne_pos.ne']
    ring
  · intro h
    obtain ⟨hi, hj⟩ := mul_ne_zero_iff.mp h
    rw [← decide_mul_neg hi hj, decide_value_neg hi, decide_value_neg hj]

theorem roundsTo_div (ha : a.isFinite = true) (hb : b.isFinite = true) (h0 : b.value ≠ 0) :
    RoundsTo (a.value / b.value) (a / b) := by
  obtain ⟨s, i, rfl⟩ := isFinite_iff_exists.mp ha
  obtain ⟨t, j, rfl⟩ := isFinite_iff_exists.mp hb
  have hj : magnitude j ≠ 0 := by rwa [← abs_value t j, abs_ne_zero]
  have hj0 : j.val ≠ 0 := fun h => hj (by rw [h, magnitude_zero])
  have hpos : 0 < units j := by
    rw [← units_zero]
    exact units_strictMono (Nat.pos_of_ne_zero hj0)
  change RoundsTo _ (div _ _)
  simp only [div, if_neg hj0]
  apply roundsTo_round hpos
  · rw [abs_div, abs_value, abs_value, Nat.cast_mul, ← magnitude_mul, ← magnitude_mul,
      mul_div_mul_right _ _ unitsPerOne_pos.ne', div_mul_eq_mul_div]
  · intro h
    have hi : value (finite s i) ≠ 0 := fun hi => h (by rw [hi, zero_div])
    rw [div_eq_mul_inv, ← decide_mul_neg hi (inv_ne_zero h0), decide_value_neg hi]
    simp only [inv_lt_zero, decide_value_neg h0]

@[simp] theorem isFinite_neg (a : Binary64) : (-a).isFinite = a.isFinite := by
  cases a <;> rfl

@[simp] theorem value_neg (a : Binary64) : (-a).value = -a.value := by
  cases a with
  | nan => exact neg_zero.symm
  | infinite s => exact neg_zero.symm
  | finite s i =>
    have hneg : -finite s i = finite (!s) i := rfl
    cases s <;> simp [hneg, value]

theorem RoundsTo.neg (h : RoundsTo x b) : RoundsTo (-x) (-b) where
  isFinite_iff := by rw [isFinite_neg, rankOf_neg, h.isFinite_iff]
  value_eq hfinite := by rw [value_neg, nearest_neg, h.value_eq (isFinite_neg b ▸ hfinite)]

theorem roundsTo_sub (ha : a.isFinite = true) (hb : b.isFinite = true) :
    RoundsTo (a.value - b.value) (a - b) := by
  have h := roundsTo_add ha (b := -b) (by rwa [isFinite_neg])
  rwa [value_neg, ← sub_eq_add_neg] at h

theorem ofDecimal_eq (coefficient places : ℕ) :
    ofDecimal coefficient places = ofRank false (rankOf ((coefficient : ℚ) / 10 ^ places)) := by
  have hnn : (0 : ℚ) ≤ coefficient / 10 ^ places := by positivity
  apply round_eq (Nat.pow_pos (by decide))
  rw [abs_of_nonneg hnn, div_mul_eq_mul_div, Nat.cast_mul, Nat.cast_pow, Nat.cast_ofNat]

theorem roundsTo_ofDecimal (coefficient places : ℕ) :
    RoundsTo ((coefficient : ℚ) / 10 ^ places) (ofDecimal coefficient places) := by
  have hnn : (0 : ℚ) ≤ coefficient / 10 ^ places := by positivity
  rw [ofDecimal_eq]
  exact roundsTo_ofRank rfl fun _ => (decide_eq_false (not_lt.mpr hnn)).symm

theorem roundsTo_ofHalvings (places : ℕ) : RoundsTo (1 / 2 ^ places) (ofHalvings places) := by
  have hnn : (0 : ℚ) ≤ 1 / 2 ^ places := by positivity
  apply roundsTo_round (Nat.two_pow_pos places)
  · rw [abs_of_nonneg hnn, div_mul_eq_mul_div, one_mul, Nat.cast_pow, Nat.cast_ofNat]
  · intro _
    exact (decide_eq_false (not_lt.mpr hnn)).symm

theorem units_finiteRanks : units finiteRanks = 2 ^ 1024 * unitsPerOne := by
  have hunits := units_binade 2046 binade_pos
  rw [Nat.add_zero, Nat.add_zero] at hunits
  have hbinade : binade = 2 ^ 52 := rfl
  have hexp : 52 + 2046 = 1024 + (1074 - 0) := by omega
  rw [finiteRanks, hunits, unitsPerOne_eq (Nat.zero_le 1074), pow_zero, Nat.one_mul, hbinade,
    Nat.add_zero, ← Nat.pow_add, ← Nat.pow_add, hexp]

theorem magnitude_finiteRanks : magnitude finiteRanks = 2 ^ 1024 := by
  rw [magnitude, units_finiteRanks, Nat.cast_mul, mul_div_cancel_right₀ _ unitsPerOne_pos.ne',
    Nat.cast_pow, Nat.cast_ofNat]

@[simp] theorem rankOf_nearest (x : ℚ) : rankOf (nearest x) = rankOf x := rankOf_eq (abs_nearest x)

theorem rankOf_lt_iff : rankOf x < finiteRanks ↔ |nearest x| < 2 ^ 1024 := by
  rw [abs_nearest, ← magnitude_finiteRanks, magnitude_strictMono.lt_iff_lt]

theorem rankOf_lt_of_abs_le (h : |x| ≤ 2 ^ 53) : rankOf x < finiteRanks := by
  have hrep : Representable (2 ^ 53 : ℚ) := representable_two_pow le_rfl
  have habs : |(2 ^ 53 : ℚ)| = 2 ^ 53 := abs_of_nonneg (by norm_num)
  refine (rankOf_mono (h.trans habs.ge)).trans_lt (rankOf_lt_iff.mpr ?_)
  rw [nearest_eq_self hrep, habs]
  exact pow_lt_pow_right₀ one_lt_two (by norm_num)

theorem RoundsTo.isFinite (h : RoundsTo x b) (hx : |x| ≤ 2 ^ 53) : b.isFinite = true :=
  h.isFinite_iff.mpr (rankOf_lt_of_abs_le hx)

/-- A representable result is exact. -/
theorem RoundsTo.eq_of_representable (h : RoundsTo x b) (hx : Representable x)
    (hb : b.isFinite = true) : b.value = x :=
  (h.value_eq hb).trans (nearest_eq_self hx)

theorem isFinite_ofNat {n : ℕ} (h : n ≤ 2 ^ 53) : (ofNat n).isFinite = true := by
  apply (roundsTo_ofDecimal n 0).isFinite
  rw [pow_zero, div_one, Nat.abs_cast]
  exact_mod_cast h

theorem value_ofNat {n : ℕ} (h : n ≤ 2 ^ 53) : (ofNat n).value = n := by
  refine ((roundsTo_ofDecimal n 0).congr (by rw [pow_zero, div_one])).eq_of_representable ?_
    (isFinite_ofNat h)
  exact_mod_cast representable_int (k := n) (by rw [Nat.abs_cast]; exact_mod_cast h)

theorem isFinite_ofHalvings (e : ℕ) : (ofHalvings e).isFinite = true := by
  apply (roundsTo_ofHalvings e).isFinite
  rw [abs_of_nonneg (by positivity)]
  exact (div_le_one_of_le₀ (one_le_pow₀ one_le_two) (by positivity)).trans (by norm_num)

theorem value_ofHalvings {e : ℕ} (h : e ≤ 1074) : (ofHalvings e).value = 1 / 2 ^ e :=
  (roundsTo_ofHalvings e).eq_of_representable (representable_halvings h) (isFinite_ofHalvings e)

theorem position?_finite (s : Bool) (i : Fin finiteRanks) :
    (finite s i).position? = some (signed s (units i)) := rfl

theorem value_lt_iff (s t : Bool) (i j : Fin finiteRanks) :
    value (finite s i) < value (finite t j) ↔ signed s (units i) < signed t (units j) := by
  rw [← mul_lt_mul_iff_left₀ unitsPerOne_pos, value_mul, value_mul, Int.cast_lt]

theorem less_iff (ha : a.isFinite = true) (hb : b.isFinite = true) :
    a.less b = true ↔ a.value < b.value := by
  obtain ⟨s, i, rfl⟩ := isFinite_iff_exists.mp ha
  obtain ⟨t, j, rfl⟩ := isFinite_iff_exists.mp hb
  simp only [less, position?_finite, decide_eq_true_eq, value_lt_iff]

theorem atLeast_iff (ha : a.isFinite = true) (hb : b.isFinite = true) :
    a.atLeast b = true ↔ b.value ≤ a.value := by
  obtain ⟨s, i, rfl⟩ := isFinite_iff_exists.mp ha
  obtain ⟨t, j, rfl⟩ := isFinite_iff_exists.mp hb
  simp only [atLeast, position?_finite, decide_eq_true_eq, ← not_lt, value_lt_iff]

theorem equals_iff (ha : a.isFinite = true) (hb : b.isFinite = true) :
    a.equals b = true ↔ a.value = b.value := by
  obtain ⟨s, i, rfl⟩ := isFinite_iff_exists.mp ha
  obtain ⟨t, j, rfl⟩ := isFinite_iff_exists.mp hb
  rw [← mul_left_inj' unitsPerOne_pos.ne', value_mul, value_mul, Int.cast_inj]
  simp only [equals, position?_finite, beq_iff_eq]

theorem isFinite_abs (a : Binary64) : a.abs.isFinite = a.isFinite := by
  cases a <;> rfl

theorem value_abs (ha : a.isFinite = true) : a.abs.value = |a.value| := by
  obtain ⟨s, i, rfl⟩ := isFinite_iff_exists.mp ha
  exact (abs_value s i).symm

end KeypadCalculator.Binary64
