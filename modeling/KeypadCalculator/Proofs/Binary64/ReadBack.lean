import KeypadCalculator.Proofs.Binary64.Arithmetic
import KeypadCalculator.Proofs.Expression.Scanning

/-! The text of a finite number is a literal that reads back as the number. -/

namespace KeypadCalculator

open Binary64

/-- The digits of a literal, and the number that they write. -/
inductive LiteralFor : Text → ℚ → Prop
  | whole {ds} : (∀ c ∈ ds, c.isDigit = true) → ds ≠ [] → LiteralFor ds (Text.digitsValue ds)
  | point {ds fs} : (∀ c ∈ ds, c.isDigit = true) → (∀ c ∈ fs, c.isDigit = true) → ds ++ fs ≠ [] →
      LiteralFor (ds ++ '.' :: fs) (Text.digitsValue (ds ++ fs) / 10 ^ fs.length)

/-- Unless it goes on behind, a literal is read as the rounded number. -/
theorem LiteralFor.reads {l t : Text} {x : ℚ} (h : LiteralFor l x)
    (ht : ∀ c ∈ t.head?, Token.startsNumber c = false) :
    ∃ v, Literal l t ∧ Token.literalValue? l = some v ∧ RoundsTo x v := by
  cases h with
  | whole hds hne =>
    have hvalue := Token.literalValue?_whole hds
    rw [if_neg hne] at hvalue
    exact ⟨_, .whole hds hne ht, hvalue, (roundsTo_ofDecimal _ 0).congr (by rw [pow_zero, div_one])⟩
  | @point ds fs hds hfs hne =>
    have hvalue : Token.literalValue? (ds ++ '.' :: fs) = _ := Token.literalValue?_point hds
    rw [if_neg hne] at hvalue
    have hend : ∀ c ∈ t.head?, c.isDigit = false := by
      intro c hc
      have hstart := ht c hc
      rw [Token.startsNumber, Bool.or_eq_false_iff] at hstart
      exact hstart.1
    exact ⟨_, .point hds hfs hend, hvalue, roundsTo_ofDecimal _ _⟩

theorem LiteralFor.startsNumber {l : Text} {x : ℚ} (h : LiteralFor l x) :
    ∀ c ∈ l, Token.startsNumber c = true := by
  obtain ⟨v, hl, -, -⟩ := h.reads (t := []) (by simp)
  exact Token.startsNumber_of_mem_literal hl

theorem literalFor_zero : LiteralFor ['0'] 0 := by
  have hwhole : LiteralFor ['0'] _ := .whole (by simp) (by simp)
  rwa [show Text.digitsValue ['0'] = 0 from rfl, Nat.cast_zero] at hwhole

namespace Decimal

/-- The number that a decimal writes. -/
def value (d : Decimal) : ℚ := d.coefficient * 10 ^ d.exponent

variable (d : Decimal)

theorem numeral_digits (n : ℕ) : ∀ c ∈ Text.numeral n, c.isDigit = true := fun _ hc =>
  Nat.isDigit_of_mem_toDigits (by omega) (by omega) hc

theorem numeral_ne_nil (n : ℕ) : Text.numeral n ≠ [] := Nat.toDigits_ne_nil

theorem zeros_digits (k : ℕ) : ∀ c ∈ List.replicate k '0', c.isDigit = true := by
  intro c hc
  rw [List.eq_of_mem_replicate hc]
  rfl

/-- Without places after the point, zeros fill up the digits. -/
theorem literalFor_positional_whole (h : 0 ≤ d.exponent) : LiteralFor d.positional d.value := by
  have hdigits : ∀ c ∈ Text.numeral d.coefficient ++ List.replicate d.exponent.toNat '0',
      c.isDigit = true := by
    intro c hc
    exact (List.mem_append.mp hc).elim (numeral_digits _ c) (zeros_digits _ c)
  have hne : Text.numeral d.coefficient ++ List.replicate d.exponent.toNat '0' ≠ [] := by
    simp [numeral_ne_nil]
  have hvalue :
      Text.digitsValue (Text.numeral d.coefficient ++ List.replicate d.exponent.toNat '0') =
        d.coefficient * 10 ^ d.exponent.toNat := by
    rw [Text.digitsValue, Nat.ofDigitChars_append, Nat.ofDigitChars_replicate_zero, Nat.mul_comm,
      ← Text.digitsValue, Text.digitsValue_numeral]
  have hwhole := LiteralFor.whole hdigits hne
  obtain ⟨k, hk⟩ := Int.eq_ofNat_of_zero_le h
  rw [hvalue] at hwhole
  rw [positional, value, if_pos h]
  convert hwhole
  rw [hk]
  push_cast
  simp

/-- With places after the point, zeros come before the digits, one of them before the point. -/
theorem literalFor_positional_point (h : ¬ 0 ≤ d.exponent) : LiteralFor d.positional d.value := by
  have hexponent : d.exponent = -(d.exponent.natAbs : ℤ) := by omega
  rw [value, hexponent, zpow_neg, zpow_natCast, ← div_eq_mul_inv]
  simp only [positional, if_neg h]
  generalize d.exponent.natAbs = places
  generalize hpadded : List.replicate (places + 1 - (Text.numeral d.coefficient).length) '0' ++
    Text.numeral d.coefficient = padded
  have hdigits : ∀ c ∈ padded, c.isDigit = true := by
    intro c hc
    rw [← hpadded] at hc
    exact (List.mem_append.mp hc).elim (zeros_digits _ c) (numeral_digits _ c)
  have hvalue : Text.digitsValue padded = d.coefficient := by
    rw [← hpadded, Text.digitsValue, Nat.ofDigitChars_append, Nat.ofDigitChars_replicate_zero,
      Nat.mul_zero, ← Text.digitsValue, Text.digitsValue_numeral]
  have hlength : places + 1 ≤ padded.length := by
    rw [← hpadded, List.length_append, List.length_replicate]
    omega
  have hplaces : (padded.drop (padded.length - places)).length = places := by
    rw [List.length_drop]
    omega
  have hwhole : ∀ c ∈ padded.take (padded.length - places), c.isDigit = true := fun c hc =>
    hdigits c (List.mem_of_mem_take hc)
  have hfraction : ∀ c ∈ padded.drop (padded.length - places), c.isDigit = true := fun c hc =>
    hdigits c (List.mem_of_mem_drop hc)
  have hne : padded ≠ [] := by
    rintro rfl
    simp at hlength
  have hpoint := LiteralFor.point hwhole hfraction (by rwa [List.take_append_drop])
  rwa [List.take_append_drop, hvalue, hplaces] at hpoint

/-- The positional text of a decimal is a literal for its value. -/
theorem literalFor_positional : LiteralFor d.positional d.value := by
  by_cases h : 0 ≤ d.exponent
  · exact literalFor_positional_whole d h
  · exact literalFor_positional_point d h

end Decimal

namespace Binary64

variable {rank grid : ℕ}

theorem zpow_sub_mul (grid k : ℕ) :
    (10 : ℚ) ^ ((grid : ℤ) - (k : ℤ)) * 2 ^ k = 10 ^ grid / 5 ^ k := by
  rw [zpow_sub₀ (by norm_num), zpow_natCast, zpow_natCast, show (10 : ℚ) ^ k = 2 ^ k * 5 ^ k by
    rw [← mul_pow]; norm_num]
  field_simp

theorem exists_decimalUnitsPerUnit : ∃ e, e = 1074 ∧ decimalUnitsPerUnit = 5 ^ e := by
  unfold decimalUnitsPerUnit
  generalize 1074 = n
  exact ⟨n, rfl, rfl⟩

theorem decimalUnitsPerUnit_pos : 0 < decimalUnitsPerUnit := by
  obtain ⟨k, -, hunits⟩ := exists_decimalUnitsPerUnit
  rw [hunits]
  exact Nat.pow_pos (by omega)

/-- A decimal on a grid, in units. -/
theorem value_mul_unitsPerOne (coefficient grid : ℕ) :
    (⟨coefficient, (grid : ℤ) - 1074⟩ : Decimal).value * unitsPerOne =
      ((coefficient * Nat.pow 10 grid : ℕ) : ℚ) / decimalUnitsPerUnit := by
  obtain ⟨k, hk, hunits⟩ := exists_unitsPerOne
  obtain ⟨j, hj, hdecimal⟩ := exists_decimalUnitsPerUnit
  obtain rfl : j = k := hj.trans hk.symm
  rw [Decimal.value, hunits, hdecimal, show (1074 : ℤ) = j by omega, Nat.pow_eq, mul_assoc]
  push_cast
  rw [zpow_sub_mul, mul_div_assoc]

theorem value_nonneg (d : Decimal) : 0 ≤ d.value :=
  mul_nonneg (Nat.cast_nonneg _) (zpow_nonneg (by norm_num) _)

theorem rankOf_of_readsBack {d : Decimal} (hd : d.exponent = (grid : ℤ) - 1074)
    (h : readsBack rank grid d.coefficient = true) : rankOf d.value = rank := by
  obtain ⟨coefficient, exponent⟩ := d
  obtain rfl := hd
  have hnearest := isNearest_rankOf (⟨coefficient, (grid : ℤ) - 1074⟩ : Decimal).value
  rw [abs_of_nonneg (value_nonneg _), value_mul_unitsPerOne] at hnearest
  rw [readsBack, beq_iff_eq] at h
  rw [← h]
  exact hnearest.unique (isNearest_nearestRank _ decimalUnitsPerUnit_pos)

end Binary64

end KeypadCalculator
