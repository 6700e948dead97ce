import KeypadCalculator.Proofs.Expression.Spelling

/-! Sums and differences of decimals with up to fifteen digits show no trace of binary fractions. -/

namespace KeypadCalculator

open Binary64 Token

variable {s t : Text} {a b x : ℚ} {m n : ℤ} {p : ℕ} {v w : Binary64}
  {op : Binary64 → Binary64 → Binary64} {o : Symbol} {c : Char}

/-- An operator between two spelled numbers is applied to the rounded ones. -/
theorem exists_evaluate_chain (hchains : Chains .sum .product o op) (hmark : symbolOf? c = some o)
    (hs : Spells s a) (ht : Spells t b)
    (hfinite : ∀ v w, RoundsTo a v → RoundsTo b w → (op v w).isFinite = true) (p : ℕ) :
    ∃ v w, RoundsTo a v ∧ RoundsTo b w ∧
      evaluate (s ++ c :: t) p = .ok ((op v w).roundToPlaces p) := by
  obtain ⟨ss, left, hleft, hleftNesting, ha, hleftScans⟩ := hs.reads
  obtain ⟨us, right, hright, hrightNesting, hb, hrightScans⟩ := ht.reads
  obtain ⟨node, hderives, hnesting, heval⟩ := hchains
  have hrest := hrightScans [] [] .nil (by simp)
  rw [List.append_nil, List.append_nil] at hrest
  have hscans := hleftScans (c :: t) (o :: us) (.symbol hmark hrest) (by
    simpa using startsNumber_of_symbolOf? hmark)
  have htree := hderives _ _ _ _ (.product (.signed hleft)) (.signed hright)
  refine ⟨left.eval, right.eval, ha, hb, evaluate_eq_ok_iff.mpr ⟨s ++ c :: t, _, ?_, ?_,
    hfinite _ _ ha hb, rfl⟩⟩
  · rw [screen_of_scans hscans, if_pos htree.count_eq]
  · refine (valueOfText_of_scans hscans).mpr ⟨_, htree, ?_, heval left right⟩
    rw [hnesting, hleftNesting, hrightNesting]
    exact Nat.zero_le _

/-- A decimal number with at most `p` digits behind the point. -/
def HasPlaces (x : ℚ) (p : ℕ) : Prop := ∃ n : ℤ, x * 10 ^ p = n

theorem placesScale_of_le (hp : p ≤ 12) : placesScale p = 10 ^ p := by
  rw [placesScale, min_eq_left (hp.trans (by decide))]

theorem abs_lt_of_size (hp : p ≤ 12) (hx : x * 10 ^ p = n) (h : |x| < 10 ^ (15 - p)) :
    |n| < 10 ^ 15 := by
  have hpow : (0 : ℚ) < 10 ^ p := by positivity
  have hscaled : |(n : ℚ)| < 10 ^ 15 := by
    calc |(n : ℚ)| = |x| * 10 ^ p := by rw [← hx, abs_mul, abs_of_pos hpow]
      _ < 10 ^ (15 - p) * 10 ^ p := mul_lt_mul_of_pos_right h hpow
      _ = 10 ^ 15 := by rw [← pow_add, Nat.sub_add_cancel (by omega)]
  exact_mod_cast hscaled

theorem abs_le_of_size (h : |x| < 10 ^ (15 - p)) : |x| ≤ 2 ^ 50 :=
  calc |x| ≤ 10 ^ (15 - p) := h.le
    _ ≤ 10 ^ 15 := pow_le_pow_right₀ (by norm_num) (Nat.sub_le _ _)
    _ ≤ 2 ^ 50 := by norm_num

/-- Two rounded numbers, neither of them large, have a finite sum. -/
theorem roundsTo_add_nearest (ha : |a| ≤ 2 ^ 50) (hb : |b| ≤ 2 ^ 50) (hv : RoundsTo a v)
    (hw : RoundsTo b w) :
    RoundsTo (nearest a + nearest b) (v + w) ∧ (v + w).isFinite = true := by
  have hvfinite : v.isFinite = true := hv.isFinite (ha.trans (by norm_num))
  have hwfinite : w.isFinite = true := hw.isFinite (hb.trans (by norm_num))
  have hsum := roundsTo_add hvfinite hwfinite
  rw [hv.value_eq hvfinite, hw.value_eq hwfinite] at hsum
  refine ⟨hsum, hsum.isFinite ?_⟩
  have hanear := abs_nearest_le (representable_two_pow (by omega)) ha
  have hbnear := abs_nearest_le (representable_two_pow (by omega)) hb
  have htriangle := abs_add_le (nearest a) (nearest b)
  linarith

/-- Rounding to places takes the rounded sum of two rounded decimals to the text of their exact
sum. -/
theorem text_rounded_sum (hp : p ≤ 12) (ha : HasPlaces a p) (hb : HasPlaces b p)
    (hasize : |a| < 10 ^ (15 - p)) (hbsize : |b| < 10 ^ (15 - p))
    (hsize : |a + b| < 10 ^ (15 - p)) (hv : RoundsTo (nearest a + nearest b) v)
    (hfinite : v.isFinite = true) :
    PlainNumber (v.roundToPlaces p).text ∧ Spells (v.roundToPlaces p).text (a + b) := by
  obtain ⟨m, hm⟩ := ha
  obtain ⟨n, hn⟩ := hb
  have hmn : (a + b) * 10 ^ p = (m + n : ℤ) := by rw [add_mul, hm, hn, Int.cast_add]
  have hsum := abs_lt_of_size hp hmn hsize
  have hscale := placesScale_of_le hp
  have hplaces := placesValue_sum hp (hscale ▸ hm) (hscale ▸ hn) (abs_lt_of_size hp hm hasize)
    (abs_lt_of_size hp hn hbsize) hsum
  rw [← hv.value_eq hfinite] at hplaces
  obtain ⟨hrounded, hvalue⟩ := roundToPlaces_spec hfinite p
  have hspells := spells_text hsum hrounded (hvalue.trans hplaces)
  rw [hscale, ← hmn, mul_div_cancel_right₀ _ (by positivity)] at hspells
  exact ⟨plainNumber_text hrounded, hspells⟩

/-- An operator that adds `b` to the left number, whatever stands on its right. -/
theorem exists_evaluate_sum {y : ℚ} (hp : p ≤ 12) (hs : Spells s a) (ht : Spells t y)
    (ha : HasPlaces a p) (hb : HasPlaces b p) (hasize : |a| < 10 ^ (15 - p))
    (hbsize : |b| < 10 ^ (15 - p)) (hsize : |a + b| < 10 ^ (15 - p))
    (hchains : Chains .sum .product o op) (hmark : symbolOf? c = some o)
    (hop : ∀ v w, RoundsTo a v → RoundsTo y w →
      RoundsTo (nearest a + nearest b) (op v w) ∧ (op v w).isFinite = true) :
    ∃ v, evaluate (s ++ c :: t) p = .ok v ∧ PlainNumber v.text ∧ Spells v.text (a + b) := by
  obtain ⟨v, w, hv, hw, heval⟩ := exists_evaluate_chain hchains hmark hs ht
    (fun v w hv hw => (hop v w hv hw).2) p
  obtain ⟨hrounds, hfinite⟩ := hop v w hv hw
  exact ⟨_, heval, text_rounded_sum hp ha hb hasize hbsize hsize hrounds hfinite⟩

/-- Sums and differences of decimals that have up to `p` places, and fifteen digits with those
before the point, are exact: the text of the result is the plain way to write it. -/
theorem evaluate_decimal_sum (hp : p ≤ 12) (hs : Spells s a) (ht : Spells t b)
    (ha : HasPlaces a p) (hb : HasPlaces b p) (hasize : |a| < 10 ^ (15 - p))
    (hbsize : |b| < 10 ^ (15 - p)) :
    (|a + b| < 10 ^ (15 - p) → ∃ v, evaluate (s ++ '+' :: t) p = .ok v ∧
      PlainNumber v.text ∧ Spells v.text (a + b)) ∧
    (|a - b| < 10 ^ (15 - p) → ∃ v, evaluate (s ++ '-' :: t) p = .ok v ∧
      PlainNumber v.text ∧ Spells v.text (a - b)) := by
  have halimit := abs_le_of_size hasize
  have hblimit := abs_le_of_size hbsize
  constructor
  · intro hsize
    exact exists_evaluate_sum hp hs ht ha hb hasize hbsize hsize chains_plus rfl
      fun v w hv hw => roundsTo_add_nearest halimit hblimit hv hw
  · intro hsize
    -- A difference is the sum with the opposite number.
    have hopposite : HasPlaces (-b) p := by
      obtain ⟨n, hn⟩ := hb
      exact ⟨-n, by rw [neg_mul, hn, Int.cast_neg]⟩
    rw [← abs_neg b] at hbsize hblimit
    rw [sub_eq_add_neg] at hsize ⊢
    exact exists_evaluate_sum hp hs ht ha hopposite hasize hbsize hsize chains_minus rfl
      fun v w hv hw => roundsTo_add_nearest halimit hblimit hv hw.neg

example : (evaluate "0.1+0.2".toList 12).map Binary64.text = .ok "0.3".toList := by decide +kernel

/-- All fifteen digits are used, and a blank and a sign stand behind the operator. -/
theorem evaluate_decimal_sum_borrow :
    let s := "999.999999999998".toList
    let t := " -.000000000001".toList
    ∃ a b : ℚ, Spells s a ∧ Spells t b ∧ HasPlaces a 12 ∧ HasPlaces b 12 ∧
      |a| < 10 ^ (15 - 12) ∧ |b| < 10 ^ (15 - 12) ∧ |a + b| < 10 ^ (15 - 12) ∧
      |a - b| < 10 ^ (15 - 12) ∧
      (∃ v, evaluate (s ++ '+' :: t) 12 = .ok v ∧ v.text = "999.999999999997".toList) ∧
      ∃ v, evaluate (s ++ '-' :: t) 12 = .ok v ∧ v.text = "999.999999999999".toList := by
  intro s t
  have hnines : ∀ (fs : Text) (n : ℕ), fs.all Char.isDigit = true ∧ fs.length = 12 ∧
      fs.getLast? ≠ some '0' ∧ Text.digitsValue ("999".toList ++ fs) = n → ∀ x : ℚ,
      x = n / 10 ^ 12 →
      PlainNumber ("999".toList ++ '.' :: fs) ∧ Spells ("999".toList ++ '.' :: fs) x := by
    rintro fs _ ⟨hfs, hlength, hlast, rfl⟩ _ rfl
    have hwhole : IsWhole "999".toList := ⟨List.all_eq_true.mp (by decide), by decide, by decide⟩
    have hfraction : IsFraction fs :=
      ⟨List.all_eq_true.mp hfs, List.ne_nil_of_length_pos (by omega), hlast⟩
    refine ⟨.positive (.point hwhole hfraction), ?_⟩
    rw [← hlength]
    exact .literal (.point hwhole.digits hfraction.digits (by simp))
  obtain ⟨a, ha⟩ : ∃ a : ℚ, a = 999999999999998 / 10 ^ 12 := ⟨_, rfl⟩
  obtain ⟨b, hb⟩ : ∃ b : ℚ, b = -(1 / 10 ^ 12) := ⟨_, rfl⟩
  obtain ⟨-, hs⟩ : PlainNumber s ∧ Spells s a :=
    hnines "999999999998".toList 999999999999998 (by decide) a (by rw [ha]; norm_num)
  have ht : Spells t b := by
    have hunit : LiteralFor ([] ++ '.' :: "000000000001".toList) _ :=
      .point (by simp) (List.all_eq_true.mp (by decide)) (by decide)
    rw [show Text.digitsValue ([] ++ "000000000001".toList) = 1 by decide, Nat.cast_one] at hunit
    exact hb ▸ .before rfl (.negative (.literal hunit))
  obtain ⟨hsumplain, hsum⟩ : PlainNumber "999.999999999997".toList ∧
      Spells "999.999999999997".toList (a + b) :=
    hnines "999999999997".toList 999999999999997 (by decide) _ (by rw [ha, hb]; norm_num)
  obtain ⟨hdiffplain, hdiff⟩ : PlainNumber "999.999999999999".toList ∧
      Spells "999.999999999999".toList (a - b) :=
    hnines "999999999999".toList 999999999999999 (by decide) _ (by rw [ha, hb]; norm_num)
  have haplaces : HasPlaces a 12 := ⟨999999999999998, by rw [ha]; norm_num⟩
  have hbplaces : HasPlaces b 12 := ⟨-1, by rw [hb]; norm_num⟩
  have hasize : |a| < 10 ^ (15 - 12) := by rw [ha]; norm_num [abs_lt]
  have hbsize : |b| < 10 ^ (15 - 12) := by rw [hb]; norm_num [abs_lt]
  have hplus : |a + b| < 10 ^ (15 - 12) := by rw [ha, hb]; norm_num [abs_lt]
  have hminus : |a - b| < 10 ^ (15 - 12) := by rw [ha, hb]; norm_num [abs_lt]
  obtain ⟨hadd, hsub⟩ := evaluate_decimal_sum (by decide) hs ht haplaces hbplaces hasize hbsize
  obtain ⟨v, hv, hvplain, hvspells⟩ := hadd hplus
  obtain ⟨w, hw, hwplain, hwspells⟩ := hsub hminus
  exact ⟨a, b, hs, ht, haplaces, hbplaces, hasize, hbsize, hplus, hminus,
    ⟨v, hv, hvplain.unique hsumplain hvspells hsum⟩,
    w, hw, hwplain.unique hdiffplain hwspells hdiff⟩

end KeypadCalculator
