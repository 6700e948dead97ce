import KeypadCalculator.Arguments
import KeypadCalculator.Proofs.Binary64.Written

/-! From the first word of an expression on, arguments are taken as they stand. -/

namespace KeypadCalculator.Arguments

variable {o : Options} {n : UInt32} {p p₁ p₂ : Option UInt32} {t word : Text}
  {rest words : List Text} {c : Command}

/-- The arguments that give a precision, if there is one to give. -/
def precisionOption : Option UInt32 → List Text
  | none => []
  | some n => ["--precision".toList, Text.numeral n.toNat]

def jsonOption (json : Bool) : List Text :=
  if json then ["--json".toList] else []

theorem shape_of_head (h : t.head? ≠ some '-') : shape t = .word := by
  unfold shape
  split <;> simp_all

theorem head?_numeral_ne_dash (n : ℕ) : (Text.numeral n).head? ≠ some '-' := by
  intro hdash
  exact absurd (Decimal.numeral_digits n '-' (List.mem_of_mem_head? hdash)) (by decide)

theorem precisionValue?_digits (hne : t ≠ []) (hdigits : ∀ c ∈ t, c.isDigit = true)
    (hsize : Text.digitsValue t < UInt32.size) :
    precisionValue? t = some (.ofNat (Text.digitsValue t)) := by
  obtain ⟨c, u, rfl⟩ := List.exists_cons_of_ne_nil hne
  have hc : c.isDigit = true := hdigits c (by simp)
  have hu : u.all Char.isDigit = true := List.all_eq_true.mpr fun d hd => hdigits d (by simp [hd])
  have hplus : c ≠ '+' := by
    rintro rfl
    exact absurd hc (by decide)
  have hminus : c ≠ '-' := by
    rintro rfl
    exact absurd hc (by decide)
  rw [precisionValue?]
  · simp [hc, hu, hminus, hsize]
  all_goals simp [hplus, hminus]

theorem precisionValue?_numeral (n : UInt32) : precisionValue? (Text.numeral n.toNat) = some n := by
  have hvalue := Text.digitsValue_numeral n.toNat
  have hsize : Text.digitsValue (Text.numeral n.toNat) < UInt32.size := by
    rw [hvalue]
    exact n.toNat_lt_size
  rw [precisionValue?_digits (Decimal.numeral_ne_nil _) (Decimal.numeral_digits _) hsize, hvalue,
    UInt32.ofNat_toNat]

/-- The options want nothing more, and come to this precision. -/
def Options.Gives (o : Options) (p : Option UInt32) : Prop :=
  o.settle = .ok ⟨p, .nothing, o.flag⟩

namespace Options

theorem Gives.complete (h : o.Gives p) : o.pending ≠ .awaiting := by
  intro hawaiting
  rw [Gives, settle, hawaiting] at h
  cases h

theorem gives_settled (p : Option UInt32) (flag : Bool) : Gives ⟨p, .nothing, flag⟩ p := rfl

theorem gives_value (n : UInt32) (flag : Bool) :
    Gives ⟨none, .value (Text.numeral n.toNat), flag⟩ (some n) := by
  simp [Gives, settle, precisionValue?_numeral]

/-- A level that names the precision waits for its value, whatever flag it knows. -/
theorem long?_precision (known : Option Text) (flag : Bool) :
    long? known ⟨none, .nothing, flag⟩ "precision".toList none =
      some (.ok ⟨none, .awaiting, flag⟩) := rfl

theorem Gives.long?_json (h : o.Gives p) (hflag : o.flag = false) :
    long? (some "json".toList) o "json".toList none = some (.ok ⟨p, .nothing, true⟩) := by
  have hraise : o.raiseFlag = .ok ⟨p, .nothing, true⟩ := by
    rw [raiseFlag, h, hflag]
    rfl
  exact congrArg some hraise

end Options

theorem expression_precision (p : Option UInt32) (flag : Bool) (rest : List Text) :
    ∃ o : Options, o.Gives p ∧ o.flag = flag ∧
      expression ⟨none, .nothing, flag⟩ (precisionOption p ++ rest) = expression o rest := by
  cases p with
  | none => exact ⟨_, Options.gives_settled none flag, rfl, rfl⟩
  | some n =>
    refine ⟨_, Options.gives_value n flag, rfl, ?_⟩
    have hname : shape "--precision".toList = .long "precision".toList none := by decide
    have hvalue := shape_of_head (head?_numeral_ne_dash n.toNat)
    simp only [precisionOption, List.cons_append, List.nil_append]
    rw [expression, hname]
    simp only [Options.long?_precision]
    rw [expression, hvalue]
    simp

theorem expression_json (h : o.Gives p) (hflag : o.flag = false) (json : Bool)
    (rest : List Text) :
    ∃ o' : Options, o'.Gives p ∧ o'.flag = json ∧
      expression o (jsonOption json ++ rest) = expression o' rest := by
  cases json with
  | false => exact ⟨o, h, hflag, rfl⟩
  | true =>
    refine ⟨_, Options.gives_settled p true, rfl, ?_⟩
    have hname : shape "--json".toList = .long "json".toList none := by decide
    simp only [jsonOption, if_true, List.cons_append, List.nil_append]
    rw [expression, hname]
    simp only [h.long?_json hflag]

/-- The first word ends the options, and nothing behind it is looked at. -/
theorem expression_word (h : o.Gives p) (hword : word.head? ≠ some '-') (words : List Text) :
    expression o (word :: words) = .ok (⟨p, .nothing, o.flag⟩, word :: words) := by
  have hsettle : o.settle = .ok ⟨p, .nothing, o.flag⟩ := h
  rw [expression, shape_of_head hword]
  simp only [if_neg h.complete, hsettle]
  rfl

theorem command_evaluate (p : Option UInt32) (json : Bool) (hword : word.head? ≠ some '-')
    (words : List Text) :
    command evaluateName (precisionOption p ++ (jsonOption json ++ word :: words)) =
      .ok (.evaluate (word :: words) json, p) := by
  obtain ⟨o, hgives, hflag, hprecision⟩ :=
    expression_precision p false (jsonOption json ++ word :: words)
  obtain ⟨o', hgives', hjson, hoption⟩ := expression_json hgives hflag json (word :: words)
  have hexpression := expression_word hgives' hword words
  rw [command, if_pos rfl, hprecision, hoption, hexpression, hjson]
  rfl

theorem parseFrom_precision (p : Option UInt32) (rest : List Text) :
    ∃ o : Options, o.Gives p ∧ parseFrom {} (precisionOption p ++ rest) = parseFrom o rest := by
  cases p with
  | none => exact ⟨_, Options.gives_settled none false, rfl⟩
  | some n =>
    refine ⟨_, Options.gives_value n false, ?_⟩
    have hname : shape "--precision".toList = .long "precision".toList none := by decide
    have hvalue := shape_of_head (head?_numeral_ne_dash n.toNat)
    have hnot : "--precision".toList ∉ commandNames := by decide
    have hnamed : parseFrom {} (precisionOption (some n) ++ rest) =
        parseFrom ⟨none, .awaiting, false⟩ (Text.numeral n.toNat :: rest) := by
      simp only [precisionOption, List.cons_append, List.nil_append]
      rw [parseFrom, if_neg fun h => hnot h.1, hname]
      rfl
    rw [hnamed, parseFrom.eq_def]
    simp only [hvalue, ne_eq, not_true_eq_false, and_false, if_false, if_true]

/-- The precision behind the command wins. -/
theorem parseFrom_evaluate (h : o.Gives p₁) (hcommand : command evaluateName rest = .ok (c, p₂)) :
    parseFrom o (evaluateName :: rest) = .ok ⟨p₂.or p₁, some c⟩ := by
  have hsettle : o.settle = .ok ⟨p₁, .nothing, o.flag⟩ := h
  have hname : evaluateName ∈ commandNames := by decide
  have hnamed : evaluateName ∈ commandNames ∧ o.pending ≠ .awaiting := ⟨hname, h.complete⟩
  rw [parseFrom.eq_def]
  simp only [if_pos hnamed, hcommand, hsettle]
  rfl

/-- Options count up to the first word, and from there on every argument is a word: those that look
like options, ends of options or calls for help too. The precision nearest to the words wins. -/
theorem parse_evaluate (p₁ p₂ : Option UInt32) (json : Bool) (hword : word.head? ≠ some '-')
    (words : List Text) :
    parse (precisionOption p₁ ++ evaluateName :: (precisionOption p₂ ++
      (jsonOption json ++ word :: words))) =
        .ok ⟨p₂.or p₁, some (.evaluate (word :: words) json)⟩ := by
  obtain ⟨o, hgives, hprecision⟩ := parseFrom_precision p₁
    (evaluateName :: (precisionOption p₂ ++ (jsonOption json ++ word :: words)))
  rw [parse, hprecision]
  exact parseFrom_evaluate hgives (command_evaluate p₂ json hword words)

/-- What follows the first word is not looked at, not even for a third precision or for help. -/
theorem parse_evaluate_lookalikes :
    let word : Text := ['1']
    let words := ["--precision".toList, "x".toList, "--json".toList, "--".toList, "-h".toList,
      "-5".toList]
    word.head? ≠ some '-' ∧
      parse (["--precision".toList, "3".toList, "eval".toList, "--precision".toList,
        "4294967295".toList, "--json".toList] ++ word :: words) =
          .ok ⟨some 4294967295, some (.evaluate (word :: words) true)⟩ := by
  intro word words
  have hword : word.head? ≠ some '-' := by decide
  exact ⟨hword, parse_evaluate (some 3) (some 4294967295) true hword words⟩

end KeypadCalculator.Arguments
