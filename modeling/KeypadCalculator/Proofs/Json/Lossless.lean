import KeypadCalculator.Proofs.Calculator.Reachable
import KeypadCalculator.Proofs.Expression.Spelling
import KeypadCalculator.Proofs.Json.Reader
import KeypadCalculator.Report

/-!
What is written as JSON is read back: strings letter by letter, finite numbers in either form, and
reports with all that they say.
-/

namespace KeypadCalculator.Json

open Binary64

variable {n : ℕ} {z : ℤ} {t : Text} {d : Decimal} {x : Binary64} {V : Value → Text → Prop}

theorem isCode_of_lt : ∀ n < 0x20,
    IsCode n ['0', '0', Nat.digitChar (n / 16), Nat.digitChar (n % 16)] := by
  have hdigits : ∀ n < 0x20,
      ['0', '0', Nat.digitChar (n / 16), Nat.digitChar (n % 16)].all (Toml.isBaseDigit 16) ∧
        Toml.baseValue 16 ['0', '0', Nat.digitChar (n / 16), Nat.digitChar (n % 16)] = n := by
    decide
  intro n hn
  exact ⟨rfl, (hdigits n hn).1, (hdigits n hn).2⟩

theorem letter_escape (c : Char) : Letter c (escape c) := by
  unfold escape
  split
  case h_8 hquote hslash _ _ _ _ _ =>
    split
    · next hcontrol => exact .code (isCode_of_lt _ hcontrol)
    · next hplain =>
      refine .plain ?_
      simp only [isPlain, Bool.and_eq_true, decide_eq_true_eq, bne_iff_ne]
      exact ⟨⟨Nat.not_lt.mp hplain, hquote⟩, hslash⟩
  all_goals exact .named rfl

theorem letters_escape (t : Text) : Letters t (t.flatMap escape) := by
  induction t with
  | nil => exact .nil
  | cons c t ih => exact .cons (letter_escape c) ih

theorem isDigits_numeral (n : ℕ) : IsDigits (Text.numeral n) :=
  ⟨Decimal.numeral_digits n, Decimal.numeral_ne_nil n⟩

theorem exponent_numeral (z : ℤ) :
    Exponent z ('e' :: (if z < 0 then '-' else '+') :: Text.numeral z.natAbs) := by
  split
  · next hneg =>
    have hz : z = -Text.digitsValue (Text.numeral z.natAbs) := by
      rw [Text.digitsValue_numeral]
      omega
    have hexponent := Exponent.negative (List.mem_cons_self (a := 'e')) (isDigits_numeral z.natAbs)
    rwa [← hz] at hexponent
  · next hnonneg =>
    have hz : z = Text.digitsValue (Text.numeral z.natAbs) := by
      rw [Text.digitsValue_numeral]
      omega
    have hexponent := Exponent.positive (List.mem_cons_self (a := 'e')) (isDigits_numeral z.natAbs)
    rwa [← hz] at hexponent

/-- The point stands behind the first digit, if more digits follow. -/
theorem exists_scientific (d : Decimal) : ∃ digit others f,
    Text.numeral d.coefficient = digit :: others ∧ Fraction others f ∧
      d.scientific = digit :: (f ++ 'e' :: (if d.leadingPlace < 0 then '-' else '+') ::
        Text.numeral d.leadingPlace.natAbs) := by
  obtain ⟨digit, others, hdigits⟩ :=
    List.exists_cons_of_ne_nil (Decimal.numeral_ne_nil d.coefficient)
  cases others with
  | nil => exact ⟨digit, [], [], hdigits, .none, by simp only [Decimal.scientific, hdigits]; rfl⟩
  | cons second others =>
    have hothers : IsDigits (second :: others) := by
      refine ⟨fun c hc => Decimal.numeral_digits d.coefficient c ?_, List.cons_ne_nil _ _⟩
      rw [hdigits]
      exact List.mem_cons_of_mem _ hc
    refine ⟨digit, second :: others, _, hdigits, .point hothers, ?_⟩
    simp only [Decimal.scientific, hdigits]
    rfl

theorem unsigned_scientific (d : Decimal) : Unsigned d d.scientific := by
  obtain ⟨digit, others, f, hdigits, hf, htext⟩ := exists_scientific d
  have hdigit : digit.isDigit = true := by
    apply Decimal.numeral_digits d.coefficient
    rw [hdigits]
    exact List.mem_cons_self
  have hwhole : IsWhole [digit] := by
    refine ⟨by simpa using hdigit, List.cons_ne_nil _ _, fun hzero => ?_⟩
    rw [Option.some.inj hzero]
  have hcoefficient : Text.digitsValue ([digit] ++ others) = d.coefficient := by
    rw [List.singleton_append, ← hdigits, Text.digitsValue_numeral]
  have hexponent : d.leadingPlace - others.length = d.exponent := by
    rw [Decimal.leadingPlace, hdigits, List.length_cons]
    omega
  have hunsigned := Unsigned.intro hwhole hf (exponent_numeral d.leadingPlace)
  rw [hcoefficient, hexponent] at hunsigned
  rw [htext]
  exact hunsigned

/-- The positional text of a decimal has a point just if there are places behind it. -/
theorem exists_positional (h10 : d.coefficient % 10 ≠ 0) : ∃ ds fs,
    IsWhole ds ∧ (∀ c ∈ fs, c.isDigit = true) ∧
      d.positional = (if fs = [] then ds else ds ++ '.' :: fs) ∧
      fs.length = (-d.exponent).toNat ∧
      d.value * 10 ^ fs.length = Text.digitsValue (ds ++ fs) := by
  have hplain := (Decimal.plainDecimal_positional h10).1
  obtain ⟨ds, fs, hds, hfs, -, htext, hvalue⟩ := hplain.exists_digits d.literalFor_positional
  refine ⟨ds, fs, hds, hfs, htext, ?_, hvalue⟩
  rw [← Decimal.fractionDigits_positional, htext]
  split
  · next hnil => rw [fractionDigits_whole (not_mem_digits hds.digits), hnil, List.length_nil]
  · rw [fractionDigits_point (not_mem_digits hds.digits)]

theorem value_of_places {x : ℚ} {c k : ℕ} (h : x * 10 ^ k = c) :
    Decimal.value ⟨c, 0 - (k : ℤ)⟩ = x := by
  have hpow : (10 : ℚ) ^ k ≠ 0 := by positivity
  rw [Decimal.value, zero_sub, zpow_neg, zpow_natCast, ← h, mul_inv_cancel_right₀ hpow]

/-- A magnitude is written with its value, in either form. -/
theorem exists_unsigned_magnitude (h10 : d.coefficient % 10 ≠ 0) :
    ∃ d' : Decimal, Unsigned d' (magnitude d) ∧ d'.value = d.value := by
  rw [magnitude]
  split
  · obtain ⟨ds, fs, hds, hfs, htext, hlength, hvalue⟩ := exists_positional h10
    split
    · next hwhole =>
      have hnil : fs = [] := List.eq_nil_of_length_eq_zero (by omega)
      subst hnil
      have hzero : d.value * 10 ^ 1 = Text.digitsValue (ds ++ ['0']) := by
        simp only [List.length_nil, pow_zero, mul_one, List.append_nil] at hvalue
        rw [digitsValue_concat, hvalue]
        push_cast
        ring
      rw [htext, if_pos rfl]
      exact ⟨_, .intro hds (.point ⟨by simp, by simp⟩) .none, value_of_places hzero⟩
    · next hplaces =>
      have hne : fs ≠ [] := by
        rintro rfl
        rw [List.length_nil] at hlength
        omega
      have hunsigned := Unsigned.intro hds (.point ⟨hfs, hne⟩) .none
      rw [List.append_nil] at hunsigned
      rw [htext, if_neg hne]
      exact ⟨_, hunsigned, value_of_places hvalue⟩
  · exact ⟨d, unsigned_scientific d, rfl⟩

theorem exists_unsigned_zero : ∃ d : Decimal, Unsigned d ['0', '.', '0'] ∧ rankOf d.value = 0 := by
  have hwhole : IsWhole ['0'] := ⟨by simp, by simp, fun _ => rfl⟩
  have hzero : IsDigits ['0'] := ⟨by simp, by simp⟩
  have hvalue : (0 : ℚ) * 10 ^ 1 = Text.digitsValue (['0'] ++ ['0']) := by
    rw [show Text.digitsValue (['0'] ++ ['0']) = 0 from rfl, zero_mul, Nat.cast_zero]
  have hunsigned := Unsigned.intro hwhole (.point hzero) .none
  exact ⟨_, hunsigned, (congrArg rankOf (value_of_places hvalue)).trans rankOf_zero⟩

theorem nearestTo_of_rankOf {negative : Bool} {i : Fin finiteRanks} (h : rankOf d.value = i) :
    nearestTo negative d = finite negative i := by
  rw [nearestTo, ofRank, dif_pos (h.trans_lt i.isLt)]
  exact congrArg _ (Fin.ext h)

theorem exists_unsigned_digits (i : Fin finiteRanks) : ∃ d : Decimal,
    Unsigned d (if i.val = 0 then ['0', '.', '0'] else magnitude (shortest .evenDigit i)) ∧
      rankOf d.value = i := by
  split
  · next hzero =>
    rw [hzero]
    exact exists_unsigned_zero
  · next hne =>
    obtain ⟨d, hd, hvalue⟩ := exists_unsigned_magnitude (coefficient_shortest .evenDigit hne)
    exact ⟨d, hd, by rw [hvalue, rankOf_shortest .evenDigit hne]⟩

theorem numeral_number (hx : x.isFinite = true) : Numeral x (number x) := by
  obtain ⟨negative, i, rfl⟩ := isFinite_iff_exists.mp hx
  obtain ⟨d, hd, hrank⟩ := exists_unsigned_digits i
  have hnearest : nearestTo negative d = finite negative i := nearestTo_of_rankOf hrank
  rw [number, ← hnearest]
  cases negative with
  | true =>
    rw [if_pos rfl]
    exact .negative hd
  | false =>
    rw [if_neg Bool.false_ne_true]
    exact .positive hd

theorem nested_string (t : Text) : Nested (n + 1) (.text t) (string t) :=
  .text (letters_escape t)

theorem nested_orNull_string (t? : Option Text) :
    Nested (n + 1) (t?.elim .null .text) (Report.orNull string t?) := by
  cases t? with
  | none => exact .null
  | some t => exact nested_string t

theorem nested_orNull_number {x? : Option Binary64} (h : ∀ x, x? = some x → x.isFinite = true) :
    Nested (n + 1) (x?.elim .null .number) (Report.orNull number x?) := by
  cases x? with
  | none => exact .null
  | some x => exact .number (numeral_number (h x rfl))

theorem member_string (name : Text) {t : Text} {v : Value} (h : V v t) :
    Member V (name, v) (string name ++ ':' :: ' ' :: t) := by
  have hspace : IsBlank [' '] := isBlank_cons rfl isBlank_nil
  have hmember := Member.intro (letters_escape name) isBlank_nil hspace h
  simpa [string] using hmember

/-- Members on lines of their own, up to the closing brace. -/
theorem items_members {members : List (Text × Value)} {lines : List Text}
    (h : List.Forall₂ (fun m line => ∃ t, V m.2 t ∧ line = Report.member m.1 t) members lines)
    (hne : members ≠ []) :
    Items '}' (Member V) members ('\n' :: (",\n".toList.intercalate lines ++ ['\n', '}'])) := by
  have hend : IsBlank ['\n'] := isBlank_cons rfl isBlank_nil
  have hindent : IsBlank ['\n', ' ', ' '] :=
    isBlank_cons rfl (isBlank_cons rfl (isBlank_cons rfl isBlank_nil))
  induction h with
  | nil => exact absurd rfl hne
  | @cons m line members lines hline h ih =>
    obtain ⟨t, ht, rfl⟩ := hline
    cases h with
    | nil =>
      have hlast : Items '}' (Member V) [m] _ := .last hindent (member_string m.1 ht) hend
      simpa [Report.member, List.intercalate] using hlast
    | cons hline h =>
      have hmore := Items.more hindent (member_string m.1 ht) isBlank_nil
        (ih (List.cons_ne_nil _ _))
      simpa [Report.member, List.intercalate] using hmore

/-- What a report says, with a null for what is not there. -/
def said (r : Report) : Value :=
  .object
    [("expression".toList, .text r.expression), ("display".toList, .text r.display),
      ("value".toList, r.value.elim .null .number), ("error".toList, r.error.elim .null .text)]

theorem document_json {r : Report} (h : ∀ x, r.value = some x → x.isFinite = true) :
    Document (said r) r.json := by
  have hlines : List.Forall₂ (fun m line => ∃ t, Nested 1 m.2 t ∧ line = Report.member m.1 t)
      [("expression".toList, .text r.expression), ("display".toList, .text r.display),
        ("value".toList, r.value.elim .null .number), ("error".toList, r.error.elim .null .text)]
      [Report.member "expression".toList (string r.expression),
        Report.member "display".toList (string r.display),
        Report.member "value".toList (Report.orNull number r.value),
        Report.member "error".toList (Report.orNull string r.error)] :=
    .cons ⟨_, nested_string _, rfl⟩ (.cons ⟨_, nested_string _, rfl⟩
      (.cons ⟨_, nested_orNull_number h, rfl⟩ (.cons ⟨_, nested_orNull_string _, rfl⟩ .nil)))
  have hnested : Nested 2 (said r) r.json :=
    .object (.items (items_members hlines (List.cons_ne_nil _ _)))
  have hdocument := Document.intro isBlank_nil hnested isBlank_nil
  rwa [List.append_nil, List.nil_append] at hdocument

theorem isFinite_of_report {p : ℕ} (h : (Report.ofExpression t p).value = some x) :
    x.isFinite = true := by
  simp only [Report.ofExpression] at h
  rcases ((Calculator.withPrecision p).typeText t).evaluate_cases with
    ⟨-, he⟩ | ⟨-, ⟨value, hvalue, he⟩ | ⟨why, -, he⟩⟩
  · rw [he] at h
    cases h
  · rw [he] at h
    obtain rfl := Option.some.inj h
    exact isFinite_of_evaluate hvalue
  · rw [he] at h
    cases h

theorem expression_ofExpression (t : Text) (p : ℕ) : (Report.ofExpression t p).expression = t := by
  simp only [Report.ofExpression]
  split <;> rfl

/-- A report is well-formed JSON that says one thing only. A reader finds in it the expression, the
display, the number itself, which is finite, and the error. -/
theorem report_lossless (t : Text) (p : ℕ) :
    let r := Report.ofExpression t p
    r.expression = t ∧ (∀ x, r.value = some x → x.isFinite = true) ∧
      (∀ v, Document v r.json ↔ v = said r) ∧ read? r.json = some (said r) := by
  intro r
  have hfinite : ∀ x, r.value = some x → x.isFinite = true := fun x => isFinite_of_report
  have hdocument : Document (said r) r.json := document_json hfinite
  have hread : read? r.json = some (said r) := read?_eq_some_iff.mpr hdocument
  refine ⟨expression_ofExpression t p, hfinite, fun v => ⟨fun hv => ?_, ?_⟩, hread⟩
  · have hv := read?_eq_some_iff.mpr hv
    rw [hread] at hv
    exact (Option.some.inj hv).symm
  · rintro rfl
    exact hdocument

end KeypadCalculator.Json
