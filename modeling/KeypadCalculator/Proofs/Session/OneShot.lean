import KeypadCalculator.Proofs.Session.Presses
import KeypadCalculator.Report

/-! A text of keys comes to the same, whether it is reported on at once or typed line by line. -/

namespace KeypadCalculator

/-- A report tells of the calculator in which its text was typed and evaluated. -/
theorem Report.ofExpression_spec (t : Text) (p : ℕ) :
    let r := Report.ofExpression t p
    let c := ((Calculator.withPrecision p).typeText t).press .evaluate
    c.display = r.display ∧ c.failure.map Failure.message = r.error ∧
      ∀ v, r.value = some v → c.text = v.text := by
  have hfresh : ((Calculator.withPrecision p).typeText t).failure = none := by
    rw [Buffer.typeText_withPrecision]
    rfl
  simp only [Report.ofExpression, Calculator.press]
  generalize (Calculator.withPrecision p).typeText t = k at hfresh ⊢
  rcases k.evaluate_cases with ⟨-, he⟩ | ⟨-, ⟨value, -, he⟩ | ⟨why, -, he⟩⟩ <;> rw [he]
  · exact ⟨rfl, by rw [hfresh]; rfl, fun v hv => by cases hv⟩
  · refine ⟨rfl, rfl, ?_⟩
    rintro v hv
    cases hv
    exact Buffer.text_ofText _
  · exact ⟨rfl, rfl, fun v hv => by cases hv⟩

namespace Session

variable {s : Settings} {line last t : Text} {lines : List Text}

/-- A line of keys is no command, and types them. -/
theorem presses_keys (hkeys : ∀ c ∈ line, isKeyChar c = true) (hne : line ≠ []) :
    ¬ Quits line ∧ presses line = line.map .append := by
  have hblanks : ∀ c ∈ line, isBlank c = false := fun c hc => not_isBlank_of_isKeyChar (hkeys c hc)
  have htrim : line.trim = line := Text.trim_eq_self hblanks
  have hcommand : ∀ command : Text, ':' ∈ command → line.trim ≠ command := by
    rintro command hcolon heq
    rw [htrim] at heq
    exact absurd (hkeys ':' (heq ▸ hcolon)) (by decide)
  have hnot : ¬ line.isBlank = true := by
    rw [← Text.trim_eq_nil_iff, htrim]
    exact hne
  refine ⟨?_, ?_⟩
  · rintro (h | h)
    · exact hcommand _ (by decide) h
    · exact hcommand _ (by decide) h
  · rw [presses, if_neg (hcommand _ (by decide)), if_neg (hcommand _ (by decide)), if_neg hnot,
      ← List.filterMap_eq_map]
    apply List.filterMap_congr
    intro c hc
    have hequals : c ≠ '=' := by
      rintro rfl
      exact absurd (hkeys '=' hc) (by decide)
    rw [Action.ofGlyph?, ofChar?_eq, if_neg hequals, if_pos (hkeys c hc)]
    rfl

theorem presses_evaluate (h : last.isBlank = true ∨ last = ['=']) :
    ¬ Quits last ∧ presses last = [.evaluate] := by
  rcases h with h | rfl
  · have htrim := Text.trim_eq_nil_iff.mpr h
    rw [Quits, presses, htrim]
    exact ⟨by decide, by simp [h]⟩
  · exact ⟨by decide, by decide⟩

/-- Wherever a text is cut, its lines type it. -/
theorem afterLines_keys (s : Settings) (hkeys : ∀ c ∈ lines.flatten, isKeyChar c = true)
    (hne : ∀ line ∈ lines, line ≠ []) :
    afterLines s lines = (Calculator.withPrecision s.precision.toNat).typeText lines.flatten := by
  have hline : ∀ line ∈ lines, ¬ Quits line ∧ presses line = line.map .append :=
    fun line hl => presses_keys (fun c hc => hkeys c (List.mem_flatten_of_mem hl hc)) (hne line hl)
  have hpresses : lines.flatMap presses = lines.flatten.map .append := by
    rw [List.map_flatten, List.flatMap]
    exact congrArg _ (List.map_congr_left fun line hl => (hline line hl).2)
  rw [afterLines_eq s fun line hl => (hline line hl).1, hpresses, List.foldl_map]
  rfl

/-- However a text of keys is cut into lines, evaluating behind them shows what a report shows,
fails as it does and leaves the value that it has. -/
theorem lines_report (s : Settings) (hkeys : ∀ c ∈ t, isKeyChar c = true)
    (hcut : lines.flatten = t) (hne : ∀ line ∈ lines, line ≠ [])
    (hlast : last.isBlank = true ∨ last = ['=']) :
    let r := Report.ofExpression t s.precision.toNat
    let c := afterLines s (lines ++ [last])
    (∃ evaluated, answer (afterLines s lines) last = (.shown evaluated r.display, c)) ∧
      c.display = r.display ∧ c.failure.map Failure.message = r.error ∧
      ∀ v, r.value = some v → c.text = v.text := by
  intro r c
  obtain ⟨hquits, hpresses⟩ := presses_evaluate hlast
  obtain ⟨evaluated, hanswer, -⟩ := exists_answer hquits (afterLines s lines)
  subst hcut
  rw [hpresses] at hanswer
  have hlines : c = (afterLines s lines).press .evaluate :=
    (afterLines_concat s lines last).trans (congrArg Prod.snd hanswer)
  obtain ⟨hdisplay, hfailure, hvalue⟩ := Report.ofExpression_spec lines.flatten s.precision.toNat
  rw [← afterLines_keys s hkeys hne, ← hlines] at hdisplay hfailure hvalue
  refine ⟨⟨evaluated, ?_⟩, hdisplay, hfailure, hvalue⟩
  rw [hanswer, ← hdisplay, hlines]
  rfl

/-- A number and a group are cut in two, and a blank line evaluates. -/
theorem lines_report_cut :
    let t := "1.50*(3-1)".toList
    let lines := ["1.5".toList, "0*(3".toList, "-1)".toList]
    let last : Text := "\t".toList
    let r := Report.ofExpression t 12
    let c := afterLines {} (lines ++ [last])
    (∀ c ∈ t, isKeyChar c = true) ∧ lines.flatten = t ∧ (∀ line ∈ lines, line ≠ []) ∧
      (last.isBlank = true ∨ last = ['=']) ∧ c.display = r.display ∧ r.display = ['3'] ∧
      c.failure.map Failure.message = r.error ∧ (∀ v, r.value = some v → c.text = v.text) ∧
      r.value = some (.ofNat 3) ∧ c.text = ['3'] := by
  intro t lines last r c
  have hkeys : ∀ c ∈ t, isKeyChar c = true := List.all_eq_true.mp (by decide)
  have hcut : lines.flatten = t := by decide
  have hne : ∀ line ∈ lines, line ≠ [] := by decide
  have hlast : last.isBlank = true ∨ last = ['='] := by decide
  obtain ⟨-, hdisplay, hfailure, hvalue⟩ := lines_report {} hkeys hcut hne hlast
  exact ⟨hkeys, hcut, hne, hlast, hdisplay, by decide +kernel, hfailure, hvalue,
    by decide +kernel, by decide +kernel⟩

end Session

end KeypadCalculator
