import KeypadCalculator.Proofs.Binary64.Steady
import KeypadCalculator.Proofs.Binary64.Written

/-! Whole numbers are exact: no rounding to places changes one, and its text is its numeral. -/

namespace KeypadCalculator

/-- The numeral of a whole number, with a minus sign before a negative one. -/
def integerNumeral (n : ℤ) : Text :=
  if n < 0 then '-' :: Text.numeral n.natAbs else Text.numeral n.natAbs

namespace Binary64

variable {x : ℚ} {m n : ℤ} {p k : ℕ} {v w : Binary64}

/-- A number that is exactly this whole one. -/
def IsExactly (v : Binary64) (n : ℤ) : Prop := v.isFinite = true ∧ v.value = n

theorem RoundsTo.isExactly (h : RoundsTo x v) (hx : x = n) (hn : |n| ≤ 2 ^ 53) :
    IsExactly v n := by
  subst hx
  have hfinite := h.isFinite (by exact_mod_cast hn)
  exact ⟨hfinite, h.eq_of_representable (representable_int hn) hfinite⟩

theorem isExactly_ofNat (h : k ≤ 2 ^ 53) : IsExactly (ofNat k) k :=
  ⟨isFinite_ofNat h, by exact_mod_cast value_ofNat h⟩

theorem IsExactly.neg (hv : IsExactly v m) : IsExactly (-v) (-m) := by
  refine ⟨(isFinite_neg v).trans hv.1, ?_⟩
  rw [value_neg, hv.2]
  push_cast
  rfl

theorem IsExactly.add (hv : IsExactly v m) (hw : IsExactly w n) (h : |m + n| ≤ 2 ^ 53) :
    IsExactly (v + w) (m + n) :=
  (roundsTo_add hv.1 hw.1).isExactly (by rw [hv.2, hw.2]; push_cast; rfl) h

theorem IsExactly.sub (hv : IsExactly v m) (hw : IsExactly w n) (h : |m - n| ≤ 2 ^ 53) :
    IsExactly (v - w) (m - n) :=
  (roundsTo_sub hv.1 hw.1).isExactly (by rw [hv.2, hw.2]; push_cast; rfl) h

theorem IsExactly.mul (hv : IsExactly v m) (hw : IsExactly w n) (h : |m * n| ≤ 2 ^ 53) :
    IsExactly (v * w) (m * n) :=
  (roundsTo_mul hv.1 hw.1).isExactly (by rw [hv.2, hw.2]; push_cast; rfl) h

theorem IsExactly.div (hv : IsExactly v m) (hw : IsExactly w n) (hn : n ≠ 0) (hdvd : n ∣ m)
    (h : |m / n| ≤ 2 ^ 53) : IsExactly (v / w) (m / n) := by
  have hne : w.value ≠ 0 := by
    rw [hw.2]
    exact_mod_cast hn
  refine (roundsTo_div hv.1 hw.1 hne).isExactly ?_ h
  rw [hv.2, hw.2, Int.cast_div hdvd (by exact_mod_cast hn)]

theorem nearest_of_absorbed (hv : v.isFinite = true) (h : v + epsilon = v) :
    nearest (v.value + 1 / 2 ^ 52) = v.value := by
  have hsum := (roundsTo_add hv isFinite_epsilon).value_eq (by rwa [h])
  rw [h, epsilon, value_ofHalvings (by omega)] at hsum
  exact hsum.symm

theorem absorbed_ofNat : ∀ k : ℕ, 2 ≤ k → k ≤ 4 → ofNat k + epsilon = ofNat k := by
  decide +kernel

theorem absorbed_neg_ofNat : ∀ k : ℕ, 3 ≤ k → k ≤ 4 → -ofNat k + epsilon = -ofNat k := by
  decide +kernel

/-- Beside most whole numbers the nudge is lost, and beside the others the sum is representable. -/
theorem nearest_add_epsilon_int (hm : |m| ≤ 2 ^ 53) :
    nearest (m + 1 / 2 ^ 52) = m ∨ |m| ≤ 2 ∧ nearest (m + 1 / 2 ^ 52) = m + 1 / 2 ^ 52 := by
  rcases lt_or_ge 4 |m| with hbig | hsmall
  · exact .inl (nearest_add_epsilon (representable_int hm) (by exact_mod_cast hbig))
  obtain ⟨hlo, hhi⟩ := abs_le.mp hsmall
  rcases lt_or_ge m 2 with hlow | hhigh
  · rcases lt_or_ge m (-2) with hneg | hfine
    · -- The nudge makes a tie with the next number, and the even one of the two is `m`.
      obtain ⟨k, rfl⟩ : ∃ k : ℕ, m = -k := ⟨m.natAbs, by omega⟩
      have hk : (-ofNat k).isFinite = true := (isFinite_neg _).trans (isFinite_ofNat (by omega))
      have hlost := nearest_of_absorbed hk (absorbed_neg_ofNat k (by omega) (by omega))
      rw [value_neg, value_ofNat (by omega)] at hlost
      left
      exact_mod_cast hlost
    · right
      have hrep : Representable (((m * 2 ^ 52 + 1 : ℤ) : ℚ) / 2 ^ 52) :=
        representable_div (by omega) (abs_le.mpr ⟨by omega, by omega⟩)
      have hsum : ((m * 2 ^ 52 + 1 : ℤ) : ℚ) / 2 ^ 52 = m + 1 / 2 ^ 52 := by
        push_cast
        ring
      rw [hsum] at hrep
      exact ⟨abs_le.mpr ⟨by omega, by omega⟩, nearest_eq_self hrep⟩
  · obtain ⟨k, rfl⟩ : ∃ k : ℕ, m = k := ⟨m.natAbs, by omega⟩
    have hk : (ofNat k).isFinite = true := isFinite_ofNat (by omega)
    have hlost := nearest_of_absorbed hk (absorbed_ofNat k (by omega) (by omega))
    rw [value_ofNat (by omega)] at hlost
    left
    exact_mod_cast hlost

/-- The scale is a whole number. -/
theorem exists_scaled (m : ℤ) (p : ℕ) : ∃ n : ℤ, (m : ℚ) * placesScale p = n :=
  ⟨m * 10 ^ min p maxPrecision, by rw [placesScale]; push_cast; rfl⟩

/-- What a whole number is scaled to is nearer to the exact product than to any half. -/
theorem abs_scaledValue_sub_lt (hm : |m| ≤ 2 ^ 53) (hn : (m : ℚ) * placesScale p = n)
    (hbelow : |scaledValue m p| < 2 ^ 53) : |scaledValue m p - n| < 1 / 2 := by
  rcases nearest_add_epsilon_int hm with hlost | ⟨hsmall, hkept⟩
  · rw [scaledValue, hlost, hn] at hbelow ⊢
    have hn53 : |(n : ℚ)| ≤ 2 ^ 53 := by
      by_contra hlarge
      exact absurd (le_abs_nearest (representable_two_pow le_rfl) (not_le.mp hlarge).le)
        (not_le.mpr hbelow)
    rw [nearest_eq_self (representable_int (by exact_mod_cast hn53)), sub_self, abs_zero]
    norm_num
  · have hscale := placesScale_le p
    have hpos := placesScale_pos p
    have hsize : |(n : ℚ)| * 2 ^ 2 + 1 ≤ 2 ^ 53 := by
      have hsmall' : |(m : ℚ)| ≤ 2 := by exact_mod_cast hsmall
      have hproduct := mul_le_mul hsmall' hscale hpos.le (by norm_num)
      rw [← hn, abs_mul_placesScale]
      linarith
    have hnudged : |(m + 1 / 2 ^ 52) * placesScale p - n| ≤ ((1 : ℕ) : ℚ) / 2 ^ 2 := by
      rw [add_mul, hn, add_sub_cancel_left, abs_of_pos (by positivity)]
      push_cast
      linarith
    have hquarter := abs_nearest_sub_int_le (by omega) (by exact_mod_cast hsize) hnudged
    rw [scaledValue, hkept]
    exact hquarter.trans_lt (by norm_num)

theorem placesValue_int (hm : |m| ≤ 2 ^ 53) (p : ℕ) : placesValue m p = m := by
  obtain ⟨n, hn⟩ := exists_scaled m p
  rcases lt_or_ge |scaledValue m p| (2 ^ 53) with hbelow | hlarge
  · have hfloor := floor_eq_of_abs_sub_lt (abs_scaledValue_sub_lt hm hn hbelow)
    rw [placesValue, if_pos hbelow, hfloor, ← hn, mul_div_cancel_right₀ _ (placesScale_pos p).ne',
      nearest_eq_self (representable_int hm)]
  · exact if_neg (not_lt.mpr hlarge)

/-- Rounding to places leaves a whole number as it is. -/
theorem IsExactly.roundToPlaces (h : IsExactly v m) (hm : |m| ≤ 2 ^ 53) (p : ℕ) :
    IsExactly (v.roundToPlaces p) m := by
  obtain ⟨hfinite, hvalue⟩ := roundToPlaces_spec h.1 p
  rw [h.2, placesValue_int hm] at hvalue
  exact ⟨hfinite, hvalue⟩

theorem numeral_mul_ten (hk : k ≠ 0) : Text.numeral (k * 10) = Text.numeral k ++ ['0'] := by
  have hdigit := Nat.toDigits_append_toDigits (b := 10) (n := k) (d := 0) (by decide) (by omega)
    (by decide)
  rw [Text.numeral, Nat.mul_comm, Text.numeral]
  exact hdigit.symm

theorem numeral_mul_pow (hk : k ≠ 0) (e : ℕ) :
    Text.numeral (k * 10 ^ e) = Text.numeral k ++ List.replicate e '0' := by
  induction e with
  | zero => simp
  | succ e ih =>
    have hne : k * 10 ^ e ≠ 0 := mul_ne_zero hk (by positivity)
    rw [pow_succ, ← Nat.mul_assoc, numeral_mul_ten hne, ih, List.replicate_succ',
      List.append_assoc]

/-- The shortest decimal of a whole number has no places after the point, and below the limit no
other whole number is rounded to it. -/
theorem shortest_whole {i : ℕ} (hk : k ≠ 0) (hlimit : k < 2 ^ 53) (hi : magnitude i = k) :
    0 ≤ (shortest .larger i).exponent ∧
      (shortest .larger i).coefficient * 10 ^ (shortest .larger i).exponent.toNat = k := by
  have hi0 : i ≠ 0 := by
    rintro rfl
    rw [magnitude_zero] at hi
    exact hk (by exact_mod_cast hi.symm)
  have hrank : rankOf ((k : ℚ) / 10 ^ 0) = i := by
    apply rankOf_eq
    rw [pow_zero, div_one, Nat.abs_cast, hi]
  have hexponent := neg_le_exponent_shortest .larger hi0 (Nat.zero_le 1074) hrank
  have hread := rankOf_shortest .larger hi0
  generalize shortest .larger i = d at hexponent hread ⊢
  have hwhole : 0 ≤ d.exponent := by simpa using hexponent
  refine ⟨hwhole, ?_⟩
  have hvalue : d.value = (d.coefficient * 10 ^ d.exponent.toNat : ℕ) := by
    rw [Decimal.value, ← Int.toNat_of_nonneg hwhole, zpow_natCast, Int.toNat_natCast]
    push_cast
    rfl
  have hnearest : nearest d.value = k := by
    rw [nearest_of_nonneg (value_nonneg d), hread, hi]
  rw [hvalue] at hnearest
  rcases le_or_gt (d.coefficient * 10 ^ d.exponent.toNat) (2 ^ 53) with hsmall | hlarge
  · rw [nearest_eq_self (representable_ofNat hsmall)] at hnearest
    exact_mod_cast hnearest
  · have hge : (2 : ℚ) ^ 53 ≤ nearest (d.coefficient * 10 ^ d.exponent.toNat : ℕ) :=
      le_nearest (representable_two_pow le_rfl) (by exact_mod_cast hlarge.le)
    rw [hnearest] at hge
    exact absurd hlimit (not_lt.mpr (by exact_mod_cast hge))

theorem positional_limit :
    (shortest .larger (1076 * binade)).positional = Text.numeral (2 ^ 53) := by
  decide +kernel

theorem magnitude_limit : magnitude (1076 * binade) = 2 ^ 53 := by
  have hlimit : ofNat (2 ^ 53) = finite false ⟨1076 * binade, by decide⟩ := by decide +kernel
  have hvalue := value_ofNat (n := 2 ^ 53) le_rfl
  rw [hlimit] at hvalue
  exact_mod_cast hvalue

theorem positional_whole {i : ℕ} (hk : k ≠ 0) (hlimit : k ≤ 2 ^ 53) (hi : magnitude i = k) :
    (shortest .larger i).positional = Text.numeral k := by
  rcases hlimit.eq_or_lt with rfl | hlt
  · -- The number behind the limit is rounded to it as well, so its text is computed.
    have hlast : i = 1076 * binade := by
      apply magnitude_strictMono.injective
      rw [hi, magnitude_limit]
      norm_num
    rw [hlast, positional_limit]
  · obtain ⟨hwhole, hvalue⟩ := shortest_whole hk hlt hi
    have hcoefficient : (shortest .larger i).coefficient ≠ 0 := by
      intro hzero
      rw [hzero, Nat.zero_mul] at hvalue
      exact hk hvalue.symm
    rw [Decimal.positional_of_nonneg hwhole, ← numeral_mul_pow hcoefficient, hvalue]

/-- A whole number is written as its numeral. -/
theorem IsExactly.text_eq (h : IsExactly v n) (hlimit : |n| ≤ 2 ^ 53) :
    v.text = integerNumeral n := by
  obtain ⟨hv, hn⟩ := h
  obtain ⟨s, i, rfl⟩ := isFinite_iff_exists.mp hv
  have hmagnitude : magnitude i = n.natAbs := by
    rw [← abs_value s i, hn, Nat.cast_natAbs, Int.cast_abs]
  by_cases hi : i.val = 0
  · have hzero : n = 0 := by
      rw [hi, magnitude_zero] at hmagnitude
      have : n.natAbs = 0 := by exact_mod_cast hmagnitude.symm
      omega
    rw [text_of_zero hi, hzero]
    rfl
  · have hne : n.natAbs ≠ 0 := by
      intro hzero
      rw [hzero, Nat.cast_zero, ← magnitude_zero] at hmagnitude
      exact hi (magnitude_strictMono.injective hmagnitude)
    have hsign : s = decide (n < 0) := by
      have hvalue : value (finite s i) ≠ 0 := by
        rw [hn]
        exact_mod_cast Int.natAbs_ne_zero.mp hne
      rw [← decide_value_neg hvalue, hn]
      exact decide_eq_decide.mpr Int.cast_lt_zero
    have hsize : n.natAbs ≤ 2 ^ 53 := by
      rw [Int.abs_eq_natAbs] at hlimit
      exact_mod_cast hlimit
    rw [text_of_ne_zero hi, positional_whole hne hsize hmagnitude, hsign, integerNumeral]
    simp only [decide_eq_true_eq]

end Binary64

end KeypadCalculator
