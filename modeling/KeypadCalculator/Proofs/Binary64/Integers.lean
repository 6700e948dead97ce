import KeypadCalculator.Expression.Evaluation
import KeypadCalculator.Proofs.Binary64.Arithmetic

/-! Rounding to an integer is exact, and so is the test for a half that it makes. -/

namespace KeypadCalculator.Binary64

variable {a : Binary64} {x : ℚ} {n : ℤ}

/-- `n` is a nearest integer, and the farther one from zero at a half. -/
def IsHalfAway (x : ℚ) (n : ℤ) : Prop := |x - n| ≤ 1 / 2 ∧ (|x - n| = 1 / 2 → |x| < |(n : ℚ)|)

theorem IsHalfAway.neg (h : IsHalfAway x n) : IsHalfAway (-x) (-n) := by
  rw [IsHalfAway, Int.cast_neg, neg_sub_neg, abs_sub_comm, abs_neg, abs_neg]
  exact h

/-- The integer part of a magnitude and a half. -/
def integerOf (r : ℕ) : ℕ := (units r + unitsPerOne / 2) / unitsPerOne

theorem isHalfAway_integerOf (r : ℕ) : IsHalfAway (magnitude r) (integerOf r) := by
  have hpos := unitsPerOne_pos
  have heven : unitsPerOne = 2 * (unitsPerOne / 2) := by
    rw [unitsPerOne_eq (e := 1) (by omega), pow_one, Nat.mul_div_cancel_left _ two_pos]
  have hhalf : ((unitsPerOne / 2 : ℕ) : ℚ) = unitsPerOne / 2 := by
    rw [eq_div_iff two_ne_zero, mul_comm]
    exact_mod_cast heven.symm
  have hpos' : 0 < unitsPerOne := by exact_mod_cast hpos
  have hnat : integerOf r * unitsPerOne ≤ units r + unitsPerOne / 2 := Nat.div_mul_le_self _ _
  have hnat' : units r + unitsPerOne / 2 < (integerOf r + 1) * unitsPerOne := by
    rw [Nat.succ_mul]
    exact Nat.lt_div_mul_add hpos'
  have hlo : (integerOf r : ℚ) * unitsPerOne ≤ units r + unitsPerOne / 2 := by
    rw [← hhalf]
    exact_mod_cast hnat
  have hhi : (units r : ℚ) + unitsPerOne / 2 < (integerOf r + 1) * unitsPerOne := by
    rw [← hhalf]
    exact_mod_cast hnat'
  have hmag := magnitude_mul r
  have hlo' : (integerOf r : ℚ) ≤ magnitude r + 1 / 2 := by
    apply le_of_mul_le_mul_right _ hpos
    linarith
  have hhi' : magnitude r + 1 / 2 < integerOf r + 1 := by
    apply lt_of_mul_lt_mul_right _ hpos.le
    linarith
  have hnn := magnitude_nonneg r
  rw [IsHalfAway, Int.cast_natCast, Nat.abs_cast, abs_of_nonneg hnn]
  refine ⟨abs_le.mpr ⟨by linarith, by linarith⟩, ?_⟩
  intro he
  rcases abs_choice (magnitude r - integerOf r) with h | h <;> rw [h] at he <;> linarith

theorem one_le_abs_of_ne (h : n ≠ 0) : (1 : ℚ) ≤ |(n : ℚ)| := by
  exact_mod_cast Int.one_le_abs h

/-- An integer nearest to a representable number is representable, for the number is an integer
itself where it has 53 bits before the point. -/
theorem IsHalfAway.representable (h : IsHalfAway x n) (hx : Representable x) :
    Representable n ∧ (|(n : ℚ)| ≤ 2 ^ 53 ∨ x = n) := by
  rcases le_or_gt (2 ^ 52 : ℚ) |x| with hbig | hsmall
  · obtain ⟨m, hm⟩ := hx.exists_int_mul (e := 0) (Nat.zero_le _) (by rwa [pow_zero, mul_one])
    rw [pow_zero, mul_one] at hm
    have hmn : m = n := by
      by_contra hne
      have := one_le_abs_of_ne (sub_ne_zero.mpr hne)
      rw [Int.cast_sub, ← hm] at this
      linarith [h.1]
    subst hmn
    exact ⟨hm ▸ hx, Or.inr hm⟩
  · have hn : |(n : ℚ)| ≤ 2 ^ 53 := by
      have := abs_sub_abs_le_abs_sub (n : ℚ) x
      rw [abs_sub_comm] at this
      linarith [h.1]
    exact ⟨representable_int (by exact_mod_cast hn), Or.inl hn⟩

theorem roundToInteger_spec (ha : a.isFinite = true) :
    ∃ n : ℤ, IsHalfAway a.value n ∧ a.roundToInteger.isFinite = true ∧
      a.roundToInteger.value = n := by
  obtain ⟨s, i, rfl⟩ := isFinite_iff_exists.mp ha
  obtain ⟨n, hn, habs, hsign⟩ : ∃ n : ℤ, IsHalfAway (value (finite s i)) n ∧
      |(n : ℚ)| = integerOf i ∧ ((n : ℚ) ≠ 0 → s = decide ((n : ℚ) < 0)) := by
    have h := isHalfAway_integerOf i
    have hnn : (0 : ℚ) ≤ integerOf i := Nat.cast_nonneg _
    cases s with
    | false => exact ⟨integerOf i, h, by simp, fun _ => by simp⟩
    | true =>
      refine ⟨-integerOf i, h.neg, by simp, ?_⟩
      intro hne
      simp only [Int.cast_neg, Int.cast_natCast, neg_ne_zero] at hne ⊢
      exact (decide_eq_true (neg_neg_of_pos (lt_of_le_of_ne hnn hne.symm))).symm
  obtain ⟨hrep, hsize⟩ := hn.representable (representable_value _)
  have hround : RoundsTo n (finite s i).roundToInteger := by
    refine roundsTo_round one_pos ?_ hsign
    rw [habs, Nat.cast_one, div_one, Nat.cast_mul]
    rfl
  have hfinite : (finite s i).roundToInteger.isFinite = true := by
    rcases hsize with hle | he
    · exact hround.isFinite hle
    · rw [hround.isFinite_iff, ← he]
      exact rankOf_value_lt _
  exact ⟨n, hn, hfinite, hround.eq_of_representable hrep hfinite⟩

/-- What is left of a representable number beside its nearest integer is representable: below a
half it is the number itself, and from there on it has no bit below `2^-53`. -/
theorem IsHalfAway.representable_sub (h : IsHalfAway x n) (hx : Representable x) :
    Representable (x - n) := by
  rcases lt_or_ge |x| (1 / 2) with hsmall | hbig
  · have hn : n = 0 := by
      by_contra hne
      have := abs_sub_abs_le_abs_sub (n : ℚ) x
      rw [abs_sub_comm] at this
      linarith [h.1, one_le_abs_of_ne hne]
    rwa [hn, Int.cast_zero, sub_zero]
  · obtain ⟨k, hk⟩ := hx.exists_int_mul (e := 53) (by omega) (by linarith)
    have hrest : x - n = ((k - n * 2 ^ 53 : ℤ) : ℚ) / 2 ^ 53 := by
      rw [eq_div_iff (by norm_num), sub_mul, hk]
      push_cast
      rfl
    rw [hrest]
    apply representable_div (by omega)
    have habs : |((k - n * 2 ^ 53 : ℤ) : ℚ)| = |x - n| * 2 ^ 53 := by
      rw [hrest, abs_div, abs_of_pos (a := (2 : ℚ) ^ 53) (by norm_num),
        div_mul_cancel₀ _ (by norm_num)]
    have hle : |((k - n * 2 ^ 53 : ℤ) : ℚ)| ≤ 2 ^ 53 := by
      rw [habs]
      linarith [h.1]
    exact_mod_cast hle

theorem isFinite_half : half.isFinite = true := isFinite_ofHalvings 1

theorem value_half : half.value = 1 / 2 := by
  rw [half, value_ofHalvings (by omega), pow_one]

/-- Only a negative half is away from the floor of a half more. -/
theorem IsHalfAway.floor_eq (h : IsHalfAway x n) :
    ⌊x + 1 / 2⌋ = if x < 0 ∧ x - n = 1 / 2 then n + 1 else n := by
  obtain ⟨hlo, hhi⟩ := abs_le.mp h.1
  split
  · next hneg =>
    rw [Int.floor_eq_iff, Int.cast_add, Int.cast_one]
    constructor <;> linarith [hneg.2]
  · next hneg =>
    have hne : x - n ≠ 1 / 2 := by
      intro he
      have hx : 0 ≤ x := not_lt.mp fun hx => hneg ⟨hx, he⟩
      have hlt := h.2 (by rw [he, abs_of_nonneg (by norm_num)])
      have hn : (0 : ℚ) ≤ n := by
        have : (-1 : ℚ) < n := by linarith
        exact_mod_cast Int.add_one_le_of_lt (by exact_mod_cast this : (-1 : ℤ) < n)
      rw [abs_of_nonneg hx, abs_of_nonneg hn] at hlt
      linarith
    rw [Int.floor_eq_iff]
    exact ⟨by linarith, by linarith [lt_of_le_of_ne hhi hne]⟩

/-- Of two nearest integers a negative half has the smaller one. -/
theorem IsHalfAway.sub_eq_half_iff (h : IsHalfAway x n) (hx : x < 0) :
    x - n = 1 / 2 ↔ ∃ k : ℤ, x = k + 1 / 2 := by
  constructor
  · intro he
    exact ⟨n, by linarith⟩
  · rintro ⟨k, rfl⟩
    obtain ⟨hlo, hhi⟩ := abs_le.mp h.1
    have hkn : k ≤ n := by
      have : (k : ℚ) ≤ n := by linarith
      exact_mod_cast this
    have hnk : n ≤ k + 1 := by
      have : (n : ℚ) ≤ k + 1 := by linarith
      exact_mod_cast this
    obtain rfl | rfl : n = k ∨ n = k + 1 := by omega
    · ring
    · have hhalf : (k : ℚ) + 1 / 2 - (k + 1 : ℤ) = -(1 / 2) := by
        push_cast
        ring
      have hlt := h.2 (by rw [hhalf, abs_neg, abs_of_nonneg (by norm_num)])
      have hk : ((k + 1 : ℤ) : ℚ) ≤ 0 := by
        have : (k : ℚ) < 0 := by linarith
        exact_mod_cast Int.add_one_le_of_lt (by exact_mod_cast this : k < 0)
      rw [abs_of_neg hx, abs_of_nonpos hk] at hlt
      push_cast at hlt
      linarith

/-- The difference to the nearest integer is not rounded. -/
theorem sub_roundToInteger (ha : a.isFinite = true) (hn : IsHalfAway a.value n)
    (hfinite : a.roundToInteger.isFinite = true) (hvalue : a.roundToInteger.value = n) :
    (a - a.roundToInteger).isFinite = true ∧ (a - a.roundToInteger).value = a.value - n := by
  have hsub : RoundsTo (a.value - n) (a - a.roundToInteger) := hvalue ▸ roundsTo_sub ha hfinite
  have hsubfinite := hsub.isFinite (hn.1.trans (by norm_num))
  have hrep := hn.representable_sub (representable_value a)
  exact ⟨hsubfinite, hsub.eq_of_representable hrep hsubfinite⟩

/-- So the test for a negative half is exact. -/
theorem negativeHalf_iff (ha : a.isFinite = true) (hn : IsHalfAway a.value n)
    (hfinite : a.roundToInteger.isFinite = true) (hvalue : a.roundToInteger.value = n) :
    (a.less (zero false) && (a - a.roundToInteger).equals half) = true ↔
      a.value < 0 ∧ a.value - n = 1 / 2 := by
  obtain ⟨hsubfinite, hsubvalue⟩ := sub_roundToInteger ha hn hfinite hvalue
  rw [Bool.and_eq_true, less_iff ha rfl, equals_iff hsubfinite isFinite_half, hsubvalue,
    value_half]
  simp [zero, value]

/-- Rounding half up is exact. -/
theorem roundHalfUp_spec (ha : a.isFinite = true) :
    a.roundHalfUp.isFinite = true ∧ a.roundHalfUp.value = ⌊a.value + 1 / 2⌋ := by
  obtain ⟨n, hn, hfinite, hvalue⟩ := roundToInteger_spec ha
  have hx := representable_value a
  have htest := negativeHalf_iff ha hn hfinite hvalue
  rw [hn.floor_eq]
  simp only [roundHalfUp]
  by_cases hneg : a.value < 0 ∧ a.value - n = 1 / 2
  · rw [if_pos (htest.mpr hneg), if_pos hneg]
    have hone : ((ofNat 1).isFinite = true) := isFinite_ofNat (by norm_num)
    have hadd : RoundsTo ((n : ℚ) + 1) (a.roundToInteger + ofNat 1) := by
      have h := roundsTo_add hfinite hone
      rwa [hvalue, value_ofNat (by norm_num), Nat.cast_one] at h
    have hsize : |(n : ℚ) + 1| ≤ 2 ^ 53 := by
      obtain ⟨-, hle | he⟩ := hn.representable hx
      · exact abs_le.mpr ⟨by linarith [neg_le_of_abs_le hle], by linarith⟩
      · rw [he, sub_self] at hneg
        norm_num at hneg
    have hrep : Representable ((n : ℚ) + 1) := by
      exact_mod_cast representable_int (k := n + 1) (by exact_mod_cast hsize)
    have hfin := hadd.isFinite hsize
    exact ⟨hfin, by rw [hadd.eq_of_representable hrep hfin]; push_cast; rfl⟩
  · rw [if_neg (fun h => hneg (htest.mp h)), if_neg hneg]
    exact ⟨hfinite, hvalue⟩

/-- Whatever its size, a number is rounded to the integer nearest to it, or the larger one of two.
The rounding to integers that this is built on goes away from zero at a half; the test that mends
it takes a rounded difference, and yet is met by the negative halves and nothing else. -/
theorem roundHalfUp_exact (ha : a.isFinite = true) :
    a.roundHalfUp.isFinite = true ∧ a.roundHalfUp.value = ⌊a.value + 1 / 2⌋ ∧
      (∀ n : ℤ, a.roundHalfUp.value = n ↔ n - 1 / 2 ≤ a.value ∧ a.value < n + 1 / 2) ∧
      (∃ n : ℤ, a.roundToInteger.value = n ∧ IsHalfAway a.value n) ∧
      ((a.less (zero false) && (a - a.roundToInteger).equals half) = true ↔
        a.value < 0 ∧ ∃ n : ℤ, a.value = n + 1 / 2) := by
  obtain ⟨hup, hupvalue⟩ := roundHalfUp_spec ha
  obtain ⟨m, hm, hfinite, hvalue⟩ := roundToInteger_spec ha
  refine ⟨hup, hupvalue, ?_, ⟨m, hvalue, hm⟩, ?_⟩
  · intro n
    rw [hupvalue, Int.cast_inj, Int.floor_eq_iff]
    constructor <;> rintro ⟨hlo, hhi⟩ <;> constructor <;> linarith
  · rw [negativeHalf_iff ha hm hfinite hvalue]
    exact and_congr_right hm.sub_eq_half_iff

/-- The largest magnitude of a negative half: behind it all numbers are integers. -/
theorem roundHalfUp_exact_last_half :
    let a := -ofDecimal 45035996273704955 1
    a.isFinite = true ∧ a.roundToInteger = -ofNat 4503599627370496 ∧
      a.roundHalfUp = -ofNat 4503599627370495 ∧
      (a.value < 0 ∧ ∃ n : ℤ, a.value = n + 1 / 2) ∧
      a.roundHalfUp.value = ⌊a.value + 1 / 2⌋ := by
  intro a
  have ha : a.isFinite = true := by decide +kernel
  have htest : (a.less (zero false) && (a - a.roundToInteger).equals half) = true := by
    decide +kernel
  obtain ⟨-, hvalue, -, -, hhalf⟩ := roundHalfUp_exact ha
  exact ⟨ha, by decide +kernel, by decide +kernel, hhalf.mp htest, hvalue⟩

end KeypadCalculator.Binary64
