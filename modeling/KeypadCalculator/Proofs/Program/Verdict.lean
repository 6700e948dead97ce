import KeypadCalculator.Proofs.Calculator.Reachable
import KeypadCalculator.Proofs.Json.Lossless
import KeypadCalculator.Proofs.Program.Saving
import KeypadCalculator.Proofs.Typing.Meaning

/-! A report comes to one of three verdicts on its text, and the program prints the report and ends
as the verdict asks. -/

namespace KeypadCalculator

namespace Buffer

variable {b : Buffer} {c : Char} {t : Text}

/-- What the guards drop is in the text already, so it makes no difference to blanks. -/
theorem isBlank_append (b : Buffer) (c : Char) :
    (b.append c).text.isBlank = (b.text.isBlank && isBlank c) := by
  have hpush (c : Char) : (b.push c).text.isBlank = (b.text.isBlank && isBlank c) := by
    simp [Text.isBlank]
  have hkept {d : Char} (hd : d ∈ b.newestFirst) (hblank : isBlank d = false) :
      b.text.isBlank = false := by
    rw [Text.isBlank, List.all_eq_false]
    exact ⟨d, List.mem_reverse.mpr hd, by simp [hblank]⟩
  by_cases hadmits : b.Admits c
  · rw [append_of_admits hadmits, hpush]
  · simp only [append]
    split_ifs with hzero hpoint hsegment hempty
    · rw [hkept (d := '0') (by simp [hzero.2]) (by decide), Bool.false_and]
    · rw [hkept (List.takeWhile_subset _ hsegment) (by decide), Bool.false_and]
    · subst hpoint
      simp [Text.isBlank, KeypadCalculator.isBlank]
    · rw [hpush, hpoint]
    · exact hpush c

theorem isBlank_foldl_append (t : Text) (b : Buffer) :
    (t.foldl append b).text.isBlank = (b.text.isBlank && t.isBlank) := by
  induction t generalizing b with
  | nil => simp [Text.isBlank]
  | cons c t ih =>
    rw [List.foldl_cons, ih, isBlank_append, Bool.and_assoc]
    rfl

theorem isBlank_typed (t : Text) : (typed t).text.isBlank = t.isBlank :=
  isBlank_foldl_append t empty

theorem text_typed_of_isBlank (h : t.isBlank = true) : (typed t).text = t := by
  have hfoldl (b : Buffer) : (t.foldl append b).text = b.text ++ t := by
    induction t generalizing b with
    | nil => simp
    | cons c t ih =>
      obtain ⟨hc, ht⟩ : isBlank c = true ∧ Text.isBlank t = true := by simpa [Text.isBlank] using h
      rw [List.foldl_cons, append_blank hc, ih ht, text_push, List.append_assoc]
      rfl
  exact hfoldl empty

end Buffer

/-- What a report may come to: there is nothing to evaluate, or it is evaluated, or that fails. -/
inductive Verdict where
  | nothing
  | value (v : Binary64)
  | failure (why : Failure)

namespace Verdict

/-- The code that the program ends with. -/
def code : Verdict → ℕ
  | failure _ => 1
  | nothing | value _ => 0

def message? : Verdict → Option Text
  | failure why => some why.message
  | nothing | value _ => none

end Verdict

/-- What a report says, given the calculator in which its text was typed. -/
inductive Report.Says (r : Report) (c : Calculator) : Verdict → Prop
  | nothing : r.expression.isBlank = true → c.evaluate.1 = .ok none → r.value = none →
      r.error = none → r.display = (if r.expression = [] then ['0'] else r.expression) →
        Says r c .nothing
  | value {v : Binary64} : r.expression.isBlank = false → c.evaluate.1 = .ok (some v) →
      v.isFinite = true → r.value = some v → r.error = none → r.display = v.text →
        Says r c (.value v)
  | failure {why : Failure} : r.expression.isBlank = false → c.evaluate.1 = .error why →
      c.evaluate.2.failure = some why → r.value = none → r.error = some why.message →
        r.display = "Error".toList → Says r c (.failure why)

namespace Calculator

variable {c : Calculator}

theorem display_of_failure (h : c.failure ≠ none) : c.display = "Error".toList :=
  if_pos (Option.isSome_iff_ne_none.mpr h)

theorem display_of_no_failure (h : c.failure = none) :
    c.display = if c.text = [] then ['0'] else c.text := by
  simp [display, h]

end Calculator

namespace Report

variable {r : Report} {c : Calculator} {x y : Verdict}

/-- No two verdicts agree on what was evaluated. -/
theorem Says.unique (hx : r.Says c x) (hy : r.Says c y) : x = y := by
  cases hx <;> cases hy <;> simp_all

theorem Says.error_eq (h : r.Says c x) : r.error = x.message? := by
  cases h <;> assumption

theorem Says.code_eq_one {message : Text} (h : r.Says c x) (herror : r.error = some message) :
    x.code = 1 := by
  rw [h.error_eq] at herror
  cases x with
  | failure why => rfl
  | nothing => cases herror
  | value v => cases herror

theorem exists_says (t : Text) (p : ℕ) :
    ∃ verdict, (ofExpression t p).Says ((Calculator.withPrecision p).typeText t) verdict := by
  have htyped := Buffer.typeText_withPrecision p t
  rw [ofExpression]
  generalize (Calculator.withPrecision p).typeText t = c at htyped ⊢
  have hblank : c.text.isBlank = t.isBlank := by
    rw [htyped]
    exact Buffer.isBlank_typed t
  rcases c.evaluate_cases with ⟨hempty, he⟩ | ⟨hne, ⟨v, hv, he⟩ | ⟨why, hwhy, he⟩⟩
  · rw [he]
    rw [hblank] at hempty
    have htext : c.text = t := by
      rw [htyped]
      exact Buffer.text_typed_of_isBlank hempty
    have hdisplay : c.display = if t = [] then ['0'] else t := by
      rw [Calculator.display_of_no_failure (by rw [htyped]; rfl), htext]
    exact ⟨.nothing, .nothing hempty (congrArg Prod.fst he) rfl rfl hdisplay⟩
  · rw [he]
    rw [hblank] at hne
    have hfinite := isFinite_of_evaluate hv
    have hnonempty : v.text ≠ [] := by
      intro hnil
      have := text_not_blank hfinite
      simp [hnil, Text.isBlank] at this
    have hdisplay :
        ({ c with buffer := .ofText v.text, failure := none, mode := .settled } :
          Calculator).display = v.text := by
      rw [Calculator.display_of_no_failure rfl, Calculator.text, Buffer.text_ofText,
        if_neg hnonempty]
    exact ⟨.value v, .value hne (congrArg Prod.fst he) hfinite rfl rfl hdisplay⟩
  · rw [he]
    rw [hblank] at hne
    have hfailed : c.evaluate.2.failure = some why := by rw [he]
    have hdisplay : c.evaluate.2.display = "Error".toList :=
      Calculator.display_of_failure (by simp [hfailed])
    rw [he] at hdisplay
    exact ⟨.failure why, .failure hne (congrArg Prod.fst he) hfailed rfl rfl hdisplay⟩

end Report

namespace Program

variable {args words : List Text} {json : Bool} {precision? : Option UInt32} {s : Settings}
  {verdict : Verdict} {c : Calculator}

/-- An expression is reported on, and the run ends as the verdict asks. -/
theorem evaluate_of_says
    (h : (Report.ofExpression ([' '].intercalate words) s.precision.toNat).Says c verdict)
    (json : Bool) (file : SettingsFile) :
    let r := Report.ofExpression ([' '].intercalate words) s.precision.toNat
    (evaluate s words json file).output = (if json then r.json else r.display) ++ ['\n'] ∧
      (evaluate s words json file).code = verdict.code := by
  have herror := h.error_eq
  cases verdict <;> simp [evaluate, herror, Verdict.code, Verdict.message?]

/-- A report repeats its text and comes to just one verdict on it, and its JSON is a document that
says what it holds. The program prints the report of an expression in the form that is asked for,
whatever the verdict, and ends with an error code just if evaluating failed. -/
theorem report_coherent :
    (∀ t p,
      let r := Report.ofExpression t p
      r.expression = t ∧
        (∃! verdict, r.Says ((Calculator.withPrecision p).typeText t) verdict) ∧
        Json.Document (Json.said r) r.json ∧ Json.read? r.json = some (Json.said r)) ∧
    ∀ {args precision? words json},
      Arguments.parse args = .ok ⟨precision?, some (.evaluate words json)⟩ →
        ∀ input file host,
          let p := (effective file precision? host).1.precision.toNat
          let t := [' '].intercalate words
          let r := Report.ofExpression t p
          ∃ outcome verdict, run args input file host = .ok outcome ∧
            r.Says ((Calculator.withPrecision p).typeText t) verdict ∧
            outcome.output = (if json then r.json else r.display) ++ ['\n'] ∧
            outcome.code = verdict.code := by
  constructor
  · intro t p r
    obtain ⟨verdict, hsays⟩ := Report.exists_says t p
    have hdocument : Json.Document (Json.said r) r.json :=
      Json.document_json fun x => Json.isFinite_of_report
    exact ⟨Json.expression_ofExpression t p,
      ⟨verdict, hsays, fun other hother => hother.unique hsays⟩, hdocument,
      Json.read?_eq_some_iff.mpr hdocument⟩
  · intro args precision? words json hparse input file host
    dsimp only
    rw [effective_fst file precision? host {}]
    obtain ⟨verdict, hsays⟩ := Report.exists_says ([' '].intercalate words)
      (effective file precision?).1.precision.toNat
    obtain ⟨houtput, hcode⟩ := evaluate_of_says hsays json file
    exact ⟨_, verdict, run_eq hparse input file host, hsays, houtput, hcode⟩

/-- A division by zero is reported on in either form, and both runs fail. -/
theorem report_coherent_failure :
    let plain := ["--precision".toList, "3".toList, "eval".toList, "1".toList, "/0".toList]
    let asJson := ["eval".toList, "--json".toList, "1".toList, "/0".toList]
    let words := ["1".toList, "/0".toList]
    let message := "Evaluation failed: Result is not a finite number (inf)".toList
    Arguments.parse plain = .ok ⟨some 3, some (.evaluate words false)⟩ ∧
      Arguments.parse asJson = .ok ⟨none, some (.evaluate words true)⟩ ∧
      (∃ outcome, run plain [] .missing = .ok outcome ∧ outcome.output = "Error\n".toList ∧
        outcome.code = 1) ∧
      ∃ outcome text, run asJson [] .missing = .ok outcome ∧ outcome.output = text ++ ['\n'] ∧
        Json.read? text = some (.object [("expression".toList, .text "1 /0".toList),
          ("display".toList, .text "Error".toList), ("value".toList, .null),
          ("error".toList, .text message)]) ∧
        outcome.code = 1 := by
  intro plain asJson words message
  have hplain : Arguments.parse plain = .ok ⟨some 3, some (.evaluate words false)⟩ := by
    decide +kernel
  have hasJson : Arguments.parse asJson = .ok ⟨none, some (.evaluate words true)⟩ := by
    decide +kernel
  have hjoined : [' '].intercalate words = "1 /0".toList := by decide
  have hthree : (effective .missing (some 3)).1.precision.toNat = 3 := by decide
  have htwelve : (effective .missing none).1.precision.toNat = 12 := by decide
  let failed : Report := ⟨"1 /0".toList, "Error".toList, none, some message⟩
  have hfailed : ∀ p ∈ [3, 12], Report.ofExpression "1 /0".toList p = failed := by
    decide +kernel
  refine ⟨hplain, hasJson, ?_, ?_⟩
  · obtain ⟨outcome, verdict, hrun, hverdict, houtput, hcode⟩ :=
      report_coherent.2 hplain [] .missing {}
    rw [hthree, hjoined, hfailed 3 (by simp)] at hverdict houtput
    exact ⟨outcome, hrun, houtput, hcode.trans (hverdict.code_eq_one rfl)⟩
  · obtain ⟨outcome, verdict, hrun, hverdict, houtput, hcode⟩ :=
      report_coherent.2 hasJson [] .missing {}
    obtain ⟨-, -, -, hread⟩ := report_coherent.1 "1 /0".toList 12
    rw [htwelve, hjoined, hfailed 12 (by simp)] at hverdict houtput
    rw [hfailed 12 (by simp)] at hread
    exact ⟨outcome, _, hrun, houtput, hread, hcode.trans (hverdict.code_eq_one rfl)⟩

end Program

end KeypadCalculator
