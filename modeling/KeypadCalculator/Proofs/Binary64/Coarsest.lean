import KeypadCalculator.Proofs.Binary64.ReadBack

/-! The shortest decimal lies on the coarsest grid on which any decimal reads back. -/

namespace KeypadCalculator.Binary64

variable {tie : Tie} {d : Decimal} {rank grid coefficient k places den : ℕ}

theorem readsBack_iff : readsBack rank grid coefficient = true ↔
    nearestRank (coefficient * 10 ^ grid) decimalUnitsPerUnit = rank := by
  simp [readsBack]

theorem nearestRank_mono {a b : ℕ} (hden : 0 < den) (h : a ≤ b) :
    nearestRank a den ≤ nearestRank b den := by
  apply (isNearest_nearestRank a hden).mono (isNearest_nearestRank b hden)
  exact div_le_div_of_nonneg_right (by exact_mod_cast h) (Nat.cast_nonneg den)

theorem nearestRank_units (r : ℕ) :
    nearestRank (units r * decimalUnitsPerUnit) decimalUnitsPerUnit = r := by
  have h := isNearest_nearestRank (units r * decimalUnitsPerUnit) decimalUnitsPerUnit_pos
  have hne : (decimalUnitsPerUnit : ℚ) ≠ 0 := by exact_mod_cast decimalUnitsPerUnit_pos.ne'
  rw [Nat.cast_mul, mul_div_cancel_right₀ _ hne] at h
  exact h.unique (isNearest_units r)

/-- What lies between a magnitude and a point that reads back as it reads back as well. -/
theorem readsBack_of_between (h : readsBack rank grid coefficient = true)
    (hk : (coefficient ≤ k ∧ k * 10 ^ grid ≤ decimalUnits rank) ∨
      (k ≤ coefficient ∧ decimalUnits rank ≤ k * 10 ^ grid)) : readsBack rank grid k = true := by
  have hpos := decimalUnitsPerUnit_pos
  have hself : nearestRank (decimalUnits rank) decimalUnitsPerUnit = rank := nearestRank_units rank
  rw [readsBack_iff] at h ⊢
  apply Nat.le_antisymm
  · rcases hk with ⟨-, hle⟩ | ⟨hle, -⟩
    · exact (nearestRank_mono hpos hle).trans hself.le
    · exact (nearestRank_mono hpos (Nat.mul_le_mul_right _ hle)).trans h.le
  · rcases hk with ⟨hle, -⟩ | ⟨-, hle⟩
    · exact h.ge.trans (nearestRank_mono hpos (Nat.mul_le_mul_right _ hle))
    · exact hself.ge.trans (nearestRank_mono hpos hle)

theorem mem_neighbours : k ∈ neighbours tie rank grid ↔
    k = decimalUnits rank / 10 ^ grid ∨ k = decimalUnits rank / 10 ^ grid + 1 := by
  simp only [neighbours]
  split <;> simp [or_comm]

/-- Where any point of a grid reads back, a neighbour of the magnitude does. -/
theorem exists_neighbour (tie : Tie) (h : readsBack rank grid coefficient = true) :
    ∃ k ∈ neighbours tie rank grid, readsBack rank grid k = true := by
  rcases Nat.lt_or_ge (decimalUnits rank / 10 ^ grid) coefficient with hlt | hge
  · have hle : decimalUnits rank ≤ (decimalUnits rank / 10 ^ grid + 1) * 10 ^ grid := by
      rw [Nat.succ_mul]
      exact (Nat.lt_div_mul_add (Nat.pow_pos (by decide))).le
    exact ⟨_, mem_neighbours.mpr (Or.inr rfl), readsBack_of_between h (Or.inr ⟨hlt, hle⟩)⟩
  · have hle := Nat.div_mul_le_self (decimalUnits rank) (10 ^ grid)
    exact ⟨_, mem_neighbours.mpr (Or.inl rfl), readsBack_of_between h (Or.inl ⟨hge, hle⟩)⟩

theorem onGrid?_ne_none (tie : Tie) (h : readsBack rank grid coefficient = true) :
    onGrid? tie rank grid ≠ none := by
  obtain ⟨k, hk, hread⟩ := exists_neighbour tie h
  intro hnone
  rw [onGrid?, Option.map_eq_none_iff, List.find?_eq_none] at hnone
  exact hnone k hk hread

theorem onGrid?_eq_some (h : onGrid? tie rank grid = some d) :
    d.exponent = (grid : ℤ) - 1074 ∧ readsBack rank grid d.coefficient = true := by
  obtain ⟨k, hk, rfl⟩ := Option.map_eq_some_iff.mp h
  exact ⟨rfl, List.find?_some hk⟩

/-- A power of ten with more digits than a magnitude lies too far above it to read back. -/
theorem grid_le_length (hr : rank ≠ 0) (h : readsBack rank grid coefficient = true) :
    grid ≤ (Text.numeral (decimalUnits rank)).length := by
  by_contra hlt
  rw [readsBack_iff] at h
  have hsmall : decimalUnits rank < 10 ^ (Text.numeral (decimalUnits rank)).length :=
    (Nat.length_toDigits_le_iff (by decide) Nat.length_toDigits_pos).mp le_rfl
  have hgrid : 10 * 10 ^ (Text.numeral (decimalUnits rank)).length ≤ 10 ^ grid := by
    rw [← Nat.pow_succ']
    exact Nat.pow_le_pow_right (by decide) (by omega)
  have hpos : coefficient ≠ 0 := by
    rintro rfl
    have hzero := nearestRank_units 0
    rw [units_zero, Nat.zero_mul] at hzero
    rw [Nat.zero_mul, hzero] at h
    exact hr h.symm
  have hnext : units (rank + 1) * decimalUnitsPerUnit ≤ 2 * decimalUnits rank := by
    rw [decimalUnits, ← Nat.mul_assoc, units_succ]
    apply Nat.mul_le_mul_right
    have := gap_le_units (Nat.pos_of_ne_zero hr)
    omega
  have hfar : units (rank + 1) * decimalUnitsPerUnit ≤ coefficient * 10 ^ grid := by
    have := Nat.le_mul_of_pos_left (10 ^ grid) (Nat.pos_of_ne_zero hpos)
    omega
  have := nearestRank_mono decimalUnitsPerUnit_pos hfar
  rw [nearestRank_units, h] at this
  omega

/-- The shortest decimal reads back, and nothing does on a coarser grid than its own. -/
theorem shortest_spec (tie : Tie) (hr : rank ≠ 0) : ∃ grid : ℕ,
    (shortest tie rank).exponent = (grid : ℤ) - 1074 ∧
      readsBack rank grid (shortest tie rank).coefficient = true ∧
      ∀ g k, readsBack rank g k = true → g ≤ grid := by
  simp only [shortest]
  generalize hgrids : (List.range' 1 (Text.numeral (decimalUnits rank)).length).reverse = grids
  have hmem : ∀ g k, readsBack rank g k = true → g ≠ 0 → g ∈ grids := by
    intro g k h hg
    have := grid_le_length hr h
    rw [← hgrids, List.mem_reverse, List.mem_range'_1]
    omega
  have hsorted : grids.Pairwise (fun a b => b < a) := by
    rw [← hgrids, List.pairwise_reverse]
    exact List.pairwise_lt_range'
  cases hfind : grids.findSome? (onGrid? tie rank) with
  | none =>
    refine ⟨0, rfl, ?_, ?_⟩
    · rw [readsBack_iff, Option.getD_none, pow_zero, Nat.mul_one]
      exact nearestRank_units rank
    · intro g k h
      by_contra hg
      have hnone := List.findSome?_eq_none_iff.mp hfind g (hmem g k h (by omega))
      exact onGrid?_ne_none tie h hnone
  | some d =>
    obtain ⟨coarser, grid, finer, hsplit, hgrid, hnone⟩ := List.findSome?_eq_some_iff.mp hfind
    obtain ⟨hexponent, hread⟩ := onGrid?_eq_some hgrid
    refine ⟨grid, hexponent, hread, ?_⟩
    intro g k h
    by_contra hlt
    have hg := hmem g k h (by omega)
    rw [hsplit] at hg hsorted
    rw [List.mem_append, List.mem_cons] at hg
    rcases hg with hg | rfl | hg
    · exact onGrid?_ne_none tie h (hnone g hg)
    · omega
    · have := List.rel_of_pairwise_cons (List.pairwise_append.mp hsorted).2.1 hg
      omega

theorem rankOf_shortest (tie : Tie) (hr : rank ≠ 0) :
    rankOf (shortest tie rank).value = rank := by
  obtain ⟨grid, hexponent, hread, -⟩ := shortest_spec tie hr
  exact rankOf_of_readsBack hexponent hread

/-- Its coefficient has no zero at the end, for the next coarser grid would have the same point. -/
theorem coefficient_shortest (tie : Tie) (hr : rank ≠ 0) :
    (shortest tie rank).coefficient % 10 ≠ 0 := by
  obtain ⟨grid, -, hread, hcoarsest⟩ := shortest_spec tie hr
  intro hzero
  have hsame : (shortest tie rank).coefficient * 10 ^ grid =
      (shortest tie rank).coefficient / 10 * 10 ^ (grid + 1) := by
    rw [pow_succ', ← Nat.mul_assoc, Nat.div_mul_cancel (Nat.dvd_of_mod_eq_zero hzero)]
  have hnext : readsBack rank (grid + 1) ((shortest tie rank).coefficient / 10) = true := by
    rwa [readsBack_iff, ← hsame, ← readsBack_iff]
  have := hcoarsest _ _ hnext
  omega

theorem readsBack_of_rankOf (hp : places ≤ 1074)
    (h : rankOf ((coefficient : ℚ) / 10 ^ places) = rank) :
    readsBack rank (1074 - places) coefficient = true := by
  have hvalue : (⟨coefficient, ((1074 - places : ℕ) : ℤ) - 1074⟩ : Decimal).value =
      coefficient / 10 ^ places := by
    have hexponent : ((1074 - places : ℕ) : ℤ) - 1074 = -(places : ℤ) := by omega
    rw [Decimal.value, hexponent, zpow_neg, zpow_natCast, div_eq_mul_inv]
  have hnearest := isNearest_rankOf ((coefficient : ℚ) / 10 ^ places)
  rw [abs_of_nonneg (by positivity), ← hvalue, value_mul_unitsPerOne, hvalue, h] at hnearest
  rw [readsBack_iff]
  exact (isNearest_nearestRank _ decimalUnitsPerUnit_pos).unique hnearest

/-- No decimal with fewer places after the point reads back. -/
theorem neg_le_exponent_shortest (tie : Tie) (hr : rank ≠ 0) (hp : places ≤ 1074)
    (h : rankOf ((coefficient : ℚ) / 10 ^ places) = rank) :
    -(places : ℤ) ≤ (shortest tie rank).exponent := by
  obtain ⟨grid, hexponent, -, hcoarsest⟩ := shortest_spec tie hr
  have := hcoarsest _ _ (readsBack_of_rankOf hp h)
  omega

end KeypadCalculator.Binary64
