import KeypadCalculator.Proofs.Binary64.FifteenDigits
import KeypadCalculator.Proofs.Binary64.Written

/-! Decimal numbers in texts: how they may be written, how that is read, and the one plain way to
write each. -/

namespace KeypadCalculator

open Binary64 Token

/-- A text writes a decimal number: a literal with any signs before it and any blanks around. -/
inductive Spells : Text → ℚ → Prop
  | literal {l x} : LiteralFor l x → Spells l x
  | positive {t x} : Spells t x → Spells ('+' :: t) x
  | negative {t x} : Spells t x → Spells ('-' :: t) (-x)
  | before {c t x} : isBlank c = true → Spells t x → Spells (c :: t) x
  | after {c t x} : isBlank c = true → Spells t x → Spells (t ++ [c]) x

variable {t u ds es fs gs : Text} {x : ℚ} {n : ℤ} {p : ℕ} {w : Binary64}

/-- A spelled number is read as the rounded one, whatever follows it but a digit or a point. -/
theorem Spells.reads (h : Spells t x) : ∃ ss tree, Derives .signed ss tree ∧ tree.nesting = 0 ∧
    RoundsTo x tree.eval ∧ ∀ rest us, Scans rest us →
      (∀ c ∈ rest.head?, startsNumber c = false) → Scans (t ++ rest) (ss ++ us) := by
  induction h with
  | literal hl =>
    obtain ⟨v, -, hv, hx⟩ := hl.reads (t := []) (by simp)
    refine ⟨[.number v], .number v, derives_number v, rfl, hx, ?_⟩
    intro rest us hrest hend
    obtain ⟨v', hliteral, hv', -⟩ := hl.reads hend
    obtain rfl : v' = v := Option.some.inj (hv'.symm.trans hv)
    exact .number hliteral hv hrest
  | positive _ ih =>
    obtain ⟨ss, tree, htree, hnest, hx, hscans⟩ := ih
    exact ⟨_, tree, .positive htree, hnest, hx,
      fun rest us hrest hend => .symbol rfl (hscans rest us hrest hend)⟩
  | negative _ ih =>
    obtain ⟨ss, tree, htree, hnest, hx, hscans⟩ := ih
    exact ⟨_, _, .negative htree, hnest, hx.neg,
      fun rest us hrest hend => .symbol rfl (hscans rest us hrest hend)⟩
  | before hc _ ih =>
    obtain ⟨ss, tree, htree, hnest, hx, hscans⟩ := ih
    exact ⟨ss, tree, htree, hnest, hx,
      fun rest us hrest hend => .blank hc (hscans rest us hrest hend)⟩
  | @after c t x hc _ ih =>
    obtain ⟨ss, tree, htree, hnest, hx, hscans⟩ := ih
    refine ⟨ss, tree, htree, hnest, hx, ?_⟩
    intro rest us hrest _
    rw [List.append_assoc]
    apply hscans (c :: rest) us (.blank hc hrest)
    simpa using not_startsNumber_of_isBlank hc

/-- A number made from a decimal of up to fifteen digits spells it. -/
theorem spells_text (hn : |n| < 10 ^ 15) (hw : w.isFinite = true)
    (h : w.value = nearest (n / placesScale p)) : Spells w.text (n / placesScale p) := by
  obtain ⟨s, i, rfl⟩ := isFinite_iff_exists.mp hw
  have hmagnitude : magnitude i = |nearest (n / placesScale p)| := by rw [← h, abs_value]
  by_cases hi : i.val = 0
  · have hzero : nearest (n / placesScale p) = nearest ((0 : ℤ) / placesScale p) := by
      rw [Int.cast_zero, zero_div, nearest_zero, ← abs_eq_zero, ← hmagnitude, hi, magnitude_zero]
    rw [text_of_zero hi, eq_of_nearest_div_eq hn hzero, Int.cast_zero, zero_div]
    exact .literal literalFor_zero
  have hrank : rankOf (n / placesScale p) = i := by
    apply magnitude_strictMono.injective
    rw [hmagnitude, abs_nearest]
  have hdigits := value_shortest hn hi hrank
  have hliteral := Spells.literal (Decimal.literalFor_positional (shortest .larger i))
  have hne : value (finite s i) ≠ 0 := by
    rw [← abs_pos, abs_value, ← magnitude_zero]
    exact magnitude_strictMono (Nat.pos_of_ne_zero hi)
  have hsign : s = decide ((n : ℚ) / placesScale p < 0) := by
    rw [← decide_value_neg hne, h]
    exact decide_eq_decide.mpr (nearest_lt_zero_iff (h ▸ hne))
  rw [text_of_ne_zero hi]
  split
  · next hs =>
    have hneg : (n : ℚ) / placesScale p < 0 := of_decide_eq_true (hsign.symm.trans hs)
    have hnegative := hliteral.negative
    rwa [hdigits, abs_of_neg hneg, neg_neg] at hnegative
  · next hs =>
    have hnonneg : 0 ≤ (n : ℚ) / placesScale p := by
      rw [hsign, decide_eq_true_eq, not_lt] at hs
      exact hs
    rwa [hdigits, abs_of_nonneg hnonneg] at hliteral

theorem LiteralFor.nonneg (h : LiteralFor t x) : 0 ≤ x := by
  cases h <;> positivity

/-- The digits of a plain decimal before its point and behind it, where there may be none. -/
theorem PlainDecimal.exists_digits (h : PlainDecimal t) (hx : LiteralFor t x) : ∃ ds fs,
    IsWhole ds ∧ (∀ c ∈ fs, c.isDigit = true) ∧ fs.getLast? ≠ some '0' ∧
      t = (if fs = [] then ds else ds ++ '.' :: fs) ∧
        x * 10 ^ fs.length = Text.digitsValue (ds ++ fs) := by
  cases h with
  | whole hds =>
    refine ⟨t, [], hds, by simp, by simp, rfl, ?_⟩
    cases hx with
    | whole => simp
    | point => exact absurd (by simp) (not_mem_digits hds.digits)
  | @point ds fs hds hfs =>
    refine ⟨ds, fs, hds, hfs.digits, hfs.last, by rw [if_neg hfs.nonempty], ?_⟩
    generalize ht : ds ++ '.' :: fs = t at hx
    cases hx with
    | whole hall =>
      subst ht
      exact absurd (by simp) (not_mem_digits hall)
    | point =>
      obtain ⟨rfl, -, rfl⟩ := (List.append_cons_inj_of_notMem (not_mem_digits hds.digits)
        (not_mem_digits hfs.digits)).mp ht
      exact div_mul_cancel₀ _ (by positivity)

/-- A number is written to its last digit that is no zero, not further. -/
theorem length_le_of_value {k : ℕ} (hgs : ∀ c ∈ gs, c.isDigit = true)
    (hlast : gs.getLast? ≠ some '0') (h : x * 10 ^ fs.length = k)
    (h' : x * 10 ^ gs.length = Text.digitsValue (es ++ gs)) : gs.length ≤ fs.length := by
  by_contra hlt
  obtain ⟨j, hj⟩ : ∃ j, gs.length = fs.length + j + 1 := ⟨gs.length - fs.length - 1, by omega⟩
  have hne : gs ≠ [] := List.ne_nil_of_length_pos (by omega)
  apply digitsValue_mod hgs hne hlast es
  have hvalue : Text.digitsValue (es ++ gs) = k * 10 ^ j * 10 := by
    rw [hj, pow_succ, pow_add, ← mul_assoc, ← mul_assoc, h] at h'
    exact_mod_cast h'.symm
  omega

theorem PlainDecimal.unique (ht : PlainDecimal t) (hu : PlainDecimal u) (h : LiteralFor t x)
    (h' : LiteralFor u x) : t = u := by
  obtain ⟨ds, fs, hds, hfs, hlast, rfl, hvalue⟩ := ht.exists_digits h
  obtain ⟨es, gs, hes, hgs, hlast', rfl, hvalue'⟩ := hu.exists_digits h'
  have hlength : fs.length = gs.length := Nat.le_antisymm
    (length_le_of_value hfs hlast hvalue' hvalue) (length_le_of_value hgs hlast' hvalue hvalue')
  have hsame : Text.digitsValue (ds ++ fs) = Text.digitsValue (es ++ gs) := by
    rw [hlength, hvalue'] at hvalue
    exact_mod_cast hvalue.symm
  have hfslt := digitsValue_lt hfs
  have hgslt := digitsValue_lt hgs
  rw [digitsValue_append, digitsValue_append, hlength] at hsame
  rw [hlength] at hfslt
  have hwhole : Text.digitsValue ds = Text.digitsValue es := by
    have hdiv := congrArg (· / 10 ^ gs.length) hsame
    simpa [Nat.mul_add_div, Nat.div_eq_of_lt, hfslt, hgslt] using hdiv
  have hfraction : fs = gs := digits_eq hfs hgs hlength (by rw [hwhole] at hsame; omega)
  have hdigits : ds = es := by
    rw [← hds.numeral_digitsValue, hwhole, hes.numeral_digitsValue]
  rw [hdigits, hfraction]

theorem PlainDecimal.startsNumber (h : PlainDecimal t) : ∀ c ∈ t, startsNumber c = true := by
  intro c hc
  cases h with
  | whole hds => exact startsNumber_of_isDigit (hds.digits c hc)
  | point hds hfs =>
    rcases List.mem_append.mp hc with hc | hc
    · exact startsNumber_of_isDigit (hds.digits c hc)
    · rcases List.mem_cons.mp hc with rfl | hc
      · decide
      · exact startsNumber_of_isDigit (hfs.digits c hc)

theorem PlainDecimal.not_isBlank (h : PlainDecimal t) : ∀ c ∈ t, ¬ isBlank c = true := fun c hc =>
  Bool.eq_false_iff.mp (not_isBlank_of_startsNumber (h.startsNumber c hc))

/-- Without signs and blanks only the literal is left. -/
theorem Spells.literalFor (h : Spells t x) (ht : PlainDecimal t) : LiteralFor t x := by
  have hall := ht.startsNumber
  have hblank := ht.not_isBlank
  cases h with
  | literal hl => exact hl
  | positive _ => exact absurd (hall '+' (by simp)) (by decide)
  | negative _ => exact absurd (hall '-' (by simp)) (by decide)
  | before hc _ => exact absurd hc (hblank _ List.mem_cons_self)
  | after hc _ => exact absurd hc (hblank _ (List.mem_append_right _ List.mem_cons_self))

theorem Spells.literalFor_neg (h : Spells ('-' :: t) x) (ht : PlainDecimal t) :
    LiteralFor t (-x) := by
  generalize hu : '-' :: t = u at h
  cases h with
  | literal hl =>
    subst hu
    exact absurd (hl.startsNumber '-' (by simp)) (by decide)
  | positive _ => cases hu
  | negative hs =>
    cases hu
    rw [neg_neg]
    exact hs.literalFor ht
  | before hc _ =>
    cases hu
    exact absurd hc (by decide)
  | @after c u x hc _ =>
    have hmem : c ∈ '-' :: t := hu ▸ List.mem_append_right _ List.mem_cons_self
    rcases List.mem_cons.mp hmem with rfl | hmem
    · exact absurd hc (by decide)
    · exact absurd hc (ht.not_isBlank c hmem)

/-- What is written behind a minus sign is not zero. -/
theorem PlainDecimal.neg_of_literalFor (ht : PlainDecimal t) (hne : t ≠ ['0'])
    (h : LiteralFor t (-x)) : x < 0 := by
  by_contra hx
  have hzero : x = 0 := by linarith [h.nonneg]
  rw [hzero, neg_zero] at h
  exact hne (ht.unique (.whole ⟨by simp, by simp, fun _ => rfl⟩) h literalFor_zero)

/-- There is one plain way to write a number. -/
theorem PlainNumber.unique (ht : PlainNumber t) (hu : PlainNumber u) (h : Spells t x)
    (h' : Spells u x) : t = u := by
  cases ht with
  | positive hp =>
    have hx := h.literalFor hp
    cases hu with
    | positive hq => exact hp.unique hq hx (h'.literalFor hq)
    | negative hq hne =>
      exact absurd hx.nonneg (not_le.mpr (hq.neg_of_literalFor hne (h'.literalFor_neg hq)))
  | negative hp hne =>
    have hx := h.literalFor_neg hp
    cases hu with
    | positive hq =>
      exact absurd (h'.literalFor hq).nonneg (not_le.mpr (hp.neg_of_literalFor hne hx))
    | negative hq _ => rw [hp.unique hq hx (h'.literalFor_neg hq)]

end KeypadCalculator
