import KeypadCalculator.Proofs.Expression.Rereading

/-! How finite numbers are written: as plain decimals, with no character that could go. -/

namespace KeypadCalculator

/-- Digits before a point. Only a lone zero starts with a zero. -/
structure IsWhole (ds : Text) : Prop where
  digits : ∀ c ∈ ds, c.isDigit = true
  nonempty : ds ≠ []
  lead : ds.head? = some '0' → ds = ['0']

/-- Digits behind a point. They do not end with a zero. -/
structure IsFraction (fs : Text) : Prop where
  digits : ∀ c ∈ fs, c.isDigit = true
  nonempty : fs ≠ []
  last : fs.getLast? ≠ some '0'

inductive PlainDecimal : Text → Prop
  | whole {ds} : IsWhole ds → PlainDecimal ds
  | point {ds fs} : IsWhole ds → IsFraction fs → PlainDecimal (ds ++ '.' :: fs)

/-- A plain decimal with its sign. A zero has none. -/
inductive PlainNumber : Text → Prop
  | positive {t} : PlainDecimal t → PlainNumber t
  | negative {t} : PlainDecimal t → t ≠ ['0'] → PlainNumber ('-' :: t)

/-- How many characters stand behind the point. -/
def fractionDigits (t : Text) : ℕ := ((t.dropWhile (· ≠ '.')).drop 1).length

variable {ds fs gs : Text} {n : ℕ} {d : Decimal} {s : Bool} {i : Fin finiteRanks} {w : Binary64}

theorem not_mem_digits (h : ∀ c ∈ ds, c.isDigit = true) : '.' ∉ ds := by
  intro hpoint
  exact absurd (h _ hpoint) (by decide)

theorem decide_ne_point (h : '.' ∉ ds) : ∀ c ∈ ds, decide (c ≠ '.') = true := by
  intro c hc
  apply decide_eq_true
  rintro rfl
  exact h hc

theorem fractionDigits_whole (h : '.' ∉ ds) : fractionDigits ds = 0 := by
  rw [fractionDigits, List.dropWhile_eq_nil_iff.mpr (decide_ne_point h)]
  rfl

theorem fractionDigits_point (h : '.' ∉ ds) : fractionDigits (ds ++ '.' :: fs) = fs.length := by
  rw [fractionDigits, List.dropWhile_append_of_pos (decide_ne_point h)]
  rfl

theorem fractionDigits_minus (t : Text) : fractionDigits ('-' :: t) = fractionDigits t := rfl

theorem digitChar_eq_zero : ∀ m < 10, Nat.digitChar m = '0' → m = 0 := by decide

/-- A numeral starts with a zero only when it is the zero. -/
theorem head?_numeral (hn : n ≠ 0) : (Text.numeral n).head? ≠ some '0' := by
  induction n using Nat.strongRecOn with
  | ind n ih =>
    rw [Text.numeral, Nat.toDigits_eq_if (by decide)]
    split
    · next h =>
      intro hzero
      exact hn (digitChar_eq_zero n h (by simpa using hzero))
    · next h =>
      have htens : (Text.numeral (n / 10)).head? ≠ some '0' := ih (n / 10) (by omega) (by omega)
      rw [← Text.numeral, List.head?_append_of_ne_nil _ (Decimal.numeral_ne_nil _)]
      exact htens

theorem isWhole_numeral (n : ℕ) : IsWhole (Text.numeral n) where
  digits := Decimal.numeral_digits n
  nonempty := Decimal.numeral_ne_nil n
  lead hzero := by
    by_cases hn : n = 0
    · rw [hn]
      rfl
    · exact absurd hzero (head?_numeral hn)

/-- A numeral ends with the digit of the units. -/
theorem getLast?_numeral (hn : n % 10 ≠ 0) : (Text.numeral n).getLast? ≠ some '0' := by
  have hlast : (Text.numeral n).getLast? = some (n % 10).digitChar := by
    rw [Text.numeral, Nat.toDigits_eq_if (by decide)]
    split
    · next h => rw [Nat.mod_eq_of_lt h, List.getLast?_singleton]
    · rw [List.getLast?_concat]
  intro hzero
  rw [hlast] at hzero
  exact hn (digitChar_eq_zero _ (Nat.mod_lt _ (by decide)) (Option.some.inj hzero))

theorem digitsValue_append (ds fs : Text) :
    Text.digitsValue (ds ++ fs) = 10 ^ fs.length * Text.digitsValue ds + Text.digitsValue fs := by
  rw [Text.digitsValue, Nat.ofDigitChars_append, Nat.ofDigitChars_eq_ofDigitChars_zero]
  rfl

theorem digitsValue_singleton (c : Char) : Text.digitsValue [c] = c.toNat - 48 := by
  simp [Text.digitsValue, Nat.ofDigitChars_cons]

theorem digitsValue_concat (ds : Text) (c : Char) :
    Text.digitsValue (ds ++ [c]) = 10 * Text.digitsValue ds + (c.toNat - 48) := by
  rw [digitsValue_append, digitsValue_singleton, List.length_singleton, pow_one]

theorem digitsValue_lt (h : ∀ c ∈ ds, c.isDigit = true) : Text.digitsValue ds < 10 ^ ds.length := by
  induction ds using List.reverseRecOn with
  | nil => decide
  | append_singleton ds c ih =>
    have hc := Token.isDigit_iff.mp (h c (by simp))
    have hds := ih fun d hd => h d (by simp [hd])
    rw [digitsValue_concat, List.length_append, List.length_singleton, pow_succ]
    omega

theorem digitChar_eq : ∀ m < 10, Nat.digitChar m = Char.ofNat (48 + m) := by decide

theorem digitChar_digit {c : Char} (h : c.isDigit = true) : (c.toNat - 48).digitChar = c := by
  obtain ⟨hlo, hhi⟩ := Token.isDigit_iff.mp h
  rw [digitChar_eq _ (by omega), Nat.add_sub_cancel' hlo, Char.ofNat_toNat]

/-- Digits without a superfluous zero are the numeral of what they write. -/
theorem IsWhole.numeral_digitsValue (h : IsWhole ds) : Text.numeral (Text.digitsValue ds) = ds := by
  induction ds using List.reverseRecOn with
  | nil => exact absurd rfl h.nonempty
  | append_singleton ds c ih =>
    have hc : c.isDigit = true := h.digits c (by simp)
    have hrange := Token.isDigit_iff.mp hc
    rcases List.eq_nil_or_concat' ds with rfl | ⟨_, _, hds⟩
    · rw [List.nil_append, digitsValue_singleton, Text.numeral, Nat.toDigits_of_lt_base (by omega),
        digitChar_digit hc]
    have hne : ds ≠ [] := by simp [hds]
    have hzero : ds.head? ≠ some '0' := by
      intro hhead
      have hlone := congrArg List.length (h.lead (by rwa [List.head?_append_of_ne_nil _ hne]))
      simp [hds] at hlone
    have hinit := ih ⟨fun d hd => h.digits d (by simp [hd]), hne, fun hhead => absurd hhead hzero⟩
    have hvalue : Text.digitsValue ds ≠ 0 := by
      intro hv
      rw [hv] at hinit
      exact hzero (by rw [← hinit]; rfl)
    rw [digitsValue_concat, Text.numeral, Nat.toDigits_eq_if (by decide), if_neg (by omega)]
    have hdiv : (10 * Text.digitsValue ds + (c.toNat - 48)) / 10 = Text.digitsValue ds := by omega
    have hmod : (10 * Text.digitsValue ds + (c.toNat - 48)) % 10 = c.toNat - 48 := by omega
    rw [hdiv, hmod, ← Text.numeral, hinit, digitChar_digit hc]

/-- Digits of one length are determined by what they write. -/
theorem digits_eq (hfs : ∀ c ∈ fs, c.isDigit = true) (hgs : ∀ c ∈ gs, c.isDigit = true)
    (hlength : fs.length = gs.length) (h : Text.digitsValue fs = Text.digitsValue gs) :
    fs = gs := by
  -- A one before them makes numerals of both.
  have hlead : ∀ es : Text, (∀ c ∈ es, c.isDigit = true) → IsWhole ('1' :: es) := by
    intro es hes
    exact ⟨List.forall_mem_cons.mpr ⟨rfl, hes⟩, by simp, by simp⟩
  have hvalue : Text.digitsValue ('1' :: fs) = Text.digitsValue ('1' :: gs) := by
    rw [← List.singleton_append, digitsValue_append, hlength, h, ← digitsValue_append]
    rfl
  have hcons : '1' :: fs = '1' :: gs := by
    rw [← (hlead fs hfs).numeral_digitsValue, hvalue, (hlead gs hgs).numeral_digitsValue]
  exact (List.cons.inj hcons).2

/-- Digits that do not end with a zero do not write a multiple of ten. -/
theorem digitsValue_mod (hfs : ∀ c ∈ fs, c.isDigit = true) (hne : fs ≠ [])
    (hlast : fs.getLast? ≠ some '0') (ds : Text) : Text.digitsValue (ds ++ fs) % 10 ≠ 0 := by
  obtain ⟨es, c, rfl⟩ := (List.eq_nil_or_concat' fs).resolve_left hne
  have hc : c.isDigit = true := hfs c (by simp)
  have hrange := Token.isDigit_iff.mp hc
  rw [← List.append_assoc, digitsValue_concat]
  intro hmod
  have hzero : c.toNat - 48 = 0 := by omega
  rw [List.getLast?_concat, ← digitChar_digit hc, hzero] at hlast
  exact hlast rfl

namespace Decimal

theorem positional_of_nonneg (h : 0 ≤ d.exponent) : d.positional =
    Text.numeral d.coefficient ++ List.replicate d.exponent.toNat '0' := by
  simp only [positional, if_pos h]

/-- With more digits than places, the point stands among the digits. -/
theorem positional_of_length_gt (h : d.exponent < 0)
    (hlen : d.exponent.natAbs < (Text.numeral d.coefficient).length) : d.positional =
      (Text.numeral d.coefficient).take
          ((Text.numeral d.coefficient).length - d.exponent.natAbs) ++
        '.' :: (Text.numeral d.coefficient).drop
          ((Text.numeral d.coefficient).length - d.exponent.natAbs) := by
  have hzeros : d.exponent.natAbs + 1 - (Text.numeral d.coefficient).length = 0 := by omega
  simp only [positional, if_neg (not_le.mpr h), hzeros, List.replicate_zero, List.nil_append]

/-- With no more digits than places, a zero stands before the point. -/
theorem positional_of_length_le (h : d.exponent < 0)
    (hlen : (Text.numeral d.coefficient).length ≤ d.exponent.natAbs) : d.positional =
      ['0'] ++ '.' :: (List.replicate
        (d.exponent.natAbs - (Text.numeral d.coefficient).length) '0' ++
          Text.numeral d.coefficient) := by
  have hzeros : d.exponent.natAbs + 1 - (Text.numeral d.coefficient).length =
      d.exponent.natAbs - (Text.numeral d.coefficient).length + 1 := by omega
  have hwhole : (List.replicate (d.exponent.natAbs - (Text.numeral d.coefficient).length + 1) '0' ++
      Text.numeral d.coefficient).length - d.exponent.natAbs = 1 := by
    rw [List.length_append, List.length_replicate]
    omega
  simp only [positional, if_neg (not_le.mpr h), hzeros, hwhole]
  rfl

/-- The places of a decimal are the digits behind the point. -/
theorem fractionDigits_positional (d : Decimal) :
    fractionDigits d.positional = (-d.exponent).toNat := by
  have hdigits := numeral_digits d.coefficient
  rcases le_or_gt 0 d.exponent with h | h
  · have hall : ∀ c ∈ Text.numeral d.coefficient ++ List.replicate d.exponent.toNat '0',
        c.isDigit = true := by
      intro c hc
      exact (List.mem_append.mp hc).elim (hdigits c) (zeros_digits _ c)
    rw [positional_of_nonneg h, fractionDigits_whole (not_mem_digits hall)]
    omega
  rcases Nat.lt_or_ge d.exponent.natAbs (Text.numeral d.coefficient).length with hlen | hlen
  · have hpoint : '.' ∉ (Text.numeral d.coefficient).take
        ((Text.numeral d.coefficient).length - d.exponent.natAbs) := fun hc =>
      not_mem_digits hdigits (List.mem_of_mem_take hc)
    rw [positional_of_length_gt h hlen, fractionDigits_point hpoint, List.length_drop]
    omega
  · rw [positional_of_length_le h hlen, fractionDigits_point (by decide), List.length_append,
      List.length_replicate]
    omega

/-- A coefficient without a zero at its end is written without superfluous zeros. -/
theorem plainDecimal_positional (h10 : d.coefficient % 10 ≠ 0) :
    PlainDecimal d.positional ∧ d.positional ≠ ['0'] := by
  have hdigits := numeral_digits d.coefficient
  have hne := numeral_ne_nil d.coefficient
  have hhead : (Text.numeral d.coefficient).head? ≠ some '0' := head?_numeral (by omega)
  have hlast := getLast?_numeral h10
  rcases le_or_gt 0 d.exponent with h | h
  · have hhead' : d.positional.head? ≠ some '0' := by
      rwa [positional_of_nonneg h, List.head?_append_of_ne_nil _ hne]
    refine ⟨.whole ⟨?_, ?_, fun hzero => absurd hzero hhead'⟩, ?_⟩
    · intro c hc
      rw [positional_of_nonneg h] at hc
      exact (List.mem_append.mp hc).elim (hdigits c) (zeros_digits _ c)
    · rw [positional_of_nonneg h]
      simp [hne]
    · intro hzero
      exact hhead' (by rw [hzero]; rfl)
  rcases Nat.lt_or_ge d.exponent.natAbs (Text.numeral d.coefficient).length with hlen | hlen
  · rw [positional_of_length_gt h hlen]
    generalize hcut : (Text.numeral d.coefficient).length - d.exponent.natAbs = cut
    have hwhole : IsWhole ((Text.numeral d.coefficient).take cut) := by
      refine ⟨fun c hc => hdigits c (List.mem_of_mem_take hc), ?_, ?_⟩
      · simp only [ne_eq, List.take_eq_nil_iff, hne, or_false]
        omega
      · intro hzero
        rw [List.head?_take, if_neg (by omega)] at hzero
        exact absurd hzero hhead
    have hfraction : IsFraction ((Text.numeral d.coefficient).drop cut) := by
      refine ⟨fun c hc => hdigits c (List.mem_of_mem_drop hc), ?_, ?_⟩
      · simp only [ne_eq, List.drop_eq_nil_iff]
        omega
      · rwa [List.getLast?_drop, if_neg (by omega)]
    exact ⟨.point hwhole hfraction, fun hzero => by simpa using congrArg ('.' ∈ ·) hzero⟩
  · rw [positional_of_length_le h hlen]
    have hwhole : IsWhole ['0'] := ⟨by simp, by simp, fun _ => rfl⟩
    refine ⟨.point hwhole ⟨?_, by simp [hne], ?_⟩, by simp⟩
    · intro c hc
      exact (List.mem_append.mp hc).elim (zeros_digits _ c) (hdigits c)
    · rwa [List.getLast?_append_of_ne_nil _ hne]

end Decimal

namespace Binary64

theorem fractionDigits_text (hi : i.val ≠ 0) :
    fractionDigits (finite s i).text = (-(shortest .larger i).exponent).toNat := by
  rw [text_of_ne_zero hi, ← Decimal.fractionDigits_positional]
  split
  · exact fractionDigits_minus _
  · rfl

/-- Every finite number is written as a plain decimal. -/
theorem plainNumber_text (hw : w.isFinite = true) : PlainNumber w.text := by
  obtain ⟨s, i, rfl⟩ := isFinite_iff_exists.mp hw
  by_cases hi : i.val = 0
  · rw [text_of_zero hi]
    exact .positive (.whole ⟨by simp, by simp, fun _ => rfl⟩)
  · obtain ⟨hplain, hne⟩ := Decimal.plainDecimal_positional (coefficient_shortest .larger hi)
    rw [text_of_ne_zero hi]
    split
    · exact .negative hplain hne
    · exact .positive hplain

end Binary64

end KeypadCalculator
