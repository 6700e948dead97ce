import KeypadCalculator.Proofs.Calculator.Keyed

/-! A session is a run of key presses: which keys each of its lines presses, and what its answers
show of that run. -/

namespace KeypadCalculator

namespace Text

variable {c : Char} {t : Text}

/-- Trimming takes blanks from both ends. -/
theorem exists_blanks (t : Text) : ∃ before after : Text, before.isBlank = true ∧
    after.isBlank = true ∧ t = before ++ t.trim ++ after := by
  refine ⟨t.takeWhile KeypadCalculator.isBlank,
    ((t.dropWhile KeypadCalculator.isBlank).reverse.takeWhile KeypadCalculator.isBlank).reverse,
    List.all_takeWhile, ?_, ?_⟩
  · rw [isBlank, List.all_reverse]
    exact List.all_takeWhile
  · rw [trim, List.append_assoc, ← List.reverse_append, List.takeWhile_append_dropWhile,
      List.reverse_reverse, List.takeWhile_append_dropWhile]

theorem trim_eq_nil_iff : t.trim = [] ↔ t.isBlank = true := by
  constructor
  · intro h
    obtain ⟨before, after, hbefore, hafter, ht⟩ := exists_blanks t
    rw [isBlank] at hbefore hafter
    rw [ht, h, isBlank, List.append_nil, List.all_append, hbefore, hafter]
    rfl
  · intro h
    rw [trim, List.dropWhile_eq_nil_iff.mpr (List.all_eq_true.mp h)]
    rfl

theorem trim_concat (h : KeypadCalculator.isBlank c = true) : trim (t ++ [c]) = trim t := by
  rw [trim, trim, List.dropWhile_append]
  split
  · next hnil => simp [List.isEmpty_iff.mp hnil, h]
  · simp [h]

theorem trim_eq_self (h : ∀ c ∈ t, KeypadCalculator.isBlank c = false) : t.trim = t := by
  obtain ⟨before, after, hbefore, hafter, ht⟩ := exists_blanks t
  have hnil : ∀ u : Text, u.isBlank = true → (∀ c ∈ u, c ∈ t) → u = [] := by
    intro u hu hmem
    apply List.eq_nil_iff_forall_not_mem.mpr
    intro c hc
    have hblank := List.all_eq_true.mp hu c hc
    rw [h c (hmem c hc)] at hblank
    cases hblank
  have hb := hnil before hbefore fun c hc => by rw [ht]; simp [hc]
  have ha := hnil after hafter fun c hc => by rw [ht]; simp [hc]
  rw [hb, ha, List.nil_append, List.append_nil] at ht
  exact ht.symm

end Text

/-- No key types a blank, and no button is labelled with one. -/
theorem ofGlyph?_of_isBlank {c : Char} (h : isBlank c = true) : Action.ofGlyph? c = none := by
  rw [Action.ofGlyph?, Option.or_eq_none_iff, Option.map_eq_none_iff]
  constructor
  · rw [ofChar?_eq, if_neg, if_neg]
    · intro hkey
      rw [not_isBlank_of_isKeyChar hkey] at h
      cases h
    · rintro rfl
      exact absurd h (by decide)
  · have hlabels : Keypad.rows.flatten.all (fun b => b.label.all fun d => !isBlank d) = true := by
      decide
    apply List.find?_eq_none.mpr
    intro b hb hlabel
    have hblank := List.all_eq_true.mp (List.all_eq_true.mp hlabels b hb) c
      (by rw [beq_iff_eq.mp hlabel]; exact List.mem_singleton_self c)
    rw [h] at hblank
    cases hblank

namespace Session

variable {s : Settings} {c : Calculator} {line : Text} {lines : List Text} {actions : List Action}
  {q : Progress}

/-- The line asks to leave. -/
def Quits (line : Text) : Prop := line.trim = ":quit".toList ∨ line.trim = ":q".toList

instance : Decidable (Quits line) := inferInstanceAs (Decidable (_ ∨ _))

/-- The key presses of a line: a command is one, and so is a blank line; in any other line each
character that is a key is pressed. -/
def presses (line : Text) : List Action :=
  if line.trim = ":clear".toList then [.clear]
  else if line.trim = ":del".toList then [.erase]
  else if line.isBlank then [.evaluate]
  else line.filterMap Action.ofGlyph?

/-- What was in the calculator at the last evaluation among some presses. A blank text counts as
nothing. -/
inductive LastEvaluated (c : Calculator) (actions : List Action) : Option Text → Prop
  | never : .evaluate ∉ actions → LastEvaluated c actions none
  | last {before after} : actions = before ++ .evaluate :: after → .evaluate ∉ after →
      LastEvaluated c actions (if (before.foldl Calculator.press c).text.isBlank then none
        else some (before.foldl Calculator.press c).text)

theorem filterMap_trim (line : Text) :
    line.trim.filterMap Action.ofGlyph? = line.filterMap Action.ofGlyph? := by
  obtain ⟨before, after, hbefore, hafter, hline⟩ := Text.exists_blanks line
  have hnone : ∀ u : Text, u.isBlank = true → u.filterMap Action.ofGlyph? = [] := by
    intro u hu
    apply List.filterMap_eq_nil_iff.mpr
    intro c hc
    exact ofGlyph?_of_isBlank (List.all_eq_true.mp hu c hc)
  have hkeys := congrArg (List.filterMap Action.ofGlyph?) hline
  rw [List.filterMap_append, List.filterMap_append, hnone before hbefore, hnone after hafter,
    List.nil_append, List.append_nil] at hkeys
  exact hkeys.symm

theorem actions?_eq (h : ¬ Quits line) : actions? line = some (presses line) := by
  rw [Quits] at h
  simp only [actions?, presses]
  rw [if_neg h]
  simp only [Text.trim_eq_nil_iff, filterMap_trim]
  split_ifs <;> rfl

theorem LastEvaluated.concat {evaluated : Option Text} {a : Action}
    (h : LastEvaluated c actions evaluated) (ha : a ≠ .evaluate) :
    LastEvaluated c (actions ++ [a]) evaluated := by
  cases h with
  | never hn => exact .never (by simpa [hn] using ha.symm)
  | @last before after heq hn =>
    have hsplit : actions ++ [a] = before ++ .evaluate :: (after ++ [a]) := by
      rw [heq, List.append_assoc, List.cons_append]
    exact .last hsplit (by simpa [hn] using ha.symm)

/-- One more press evaluates what is in the calculator, or leaves what was evaluated before. -/
theorem lastEvaluated_press (h : LastEvaluated c actions q.evaluated)
    (hq : q.calculator = actions.foldl Calculator.press c) (a : Action) :
    LastEvaluated c (actions ++ [a]) (q.press a).evaluated := by
  by_cases ha : a = .evaluate
  · subst ha
    have hlast := LastEvaluated.last (c := c) (rfl : actions ++ [.evaluate] = _) List.not_mem_nil
    rw [Progress.press, if_pos rfl, Progress.evaluate, apply_ite Progress.evaluated, hq]
    exact hlast
  · rw [Progress.press, if_neg ha]
    exact h.concat ha

theorem lastEvaluated_foldl (c : Calculator) (actions : List Action) :
    LastEvaluated c actions (actions.foldl Progress.press ⟨none, c⟩).evaluated := by
  induction actions using List.reverseRecOn with
  | nil => exact .never List.not_mem_nil
  | append_singleton actions a ih =>
    rw [List.foldl_append]
    exact lastEvaluated_press ih (calculator_foldl_press actions ⟨none, c⟩) a

/-- A line is answered with the display behind its presses. -/
theorem exists_answer (h : ¬ Quits line) (c : Calculator) : ∃ evaluated,
    answer c line = (.shown evaluated ((presses line).foldl Calculator.press c).display,
      (presses line).foldl Calculator.press c) ∧ LastEvaluated c (presses line) evaluated := by
  refine ⟨_, ?_, lastEvaluated_foldl c (presses line)⟩
  simp only [answer, actions?_eq h, calculator_foldl_press]

theorem afterLines_concat (s : Settings) (lines : List Text) (line : Text) :
    afterLines s (lines ++ [line]) = (answer (afterLines s lines) line).2 := by
  rw [afterLines, List.foldl_append]
  rfl

theorem afterLines_eq (s : Settings) (h : ∀ line ∈ lines, ¬ Quits line) : afterLines s lines =
    (lines.flatMap presses).foldl Calculator.press (.withPrecision s.precision.toNat) := by
  induction lines using List.reverseRecOn with
  | nil => rfl
  | append_singleton lines line ih =>
    obtain ⟨_, hanswer, -⟩ := exists_answer (h line (by simp)) (afterLines s lines)
    rw [afterLines_concat, hanswer, ih fun l hl => h l (by simp [hl]), List.flatMap_append,
      List.foldl_append, List.flatMap_singleton]

/-- Lines that do not ask to leave do nothing but press their keys, one line behind the other, and
each is answered with the display after its presses and with what it evaluated last. -/
theorem lines_press (s : Settings) (h : ∀ line ∈ lines, ¬ Quits line) :
    afterLines s lines =
        (lines.flatMap presses).foldl Calculator.press (.withPrecision s.precision.toNat) ∧
      ∀ before line after, lines = before ++ line :: after →
        let c := (before.flatMap presses).foldl Calculator.press
          (.withPrecision s.precision.toNat)
        let d := (presses line).foldl Calculator.press c
        ∃ evaluated, answer (afterLines s before) line = (.shown evaluated d.display, d) ∧
          LastEvaluated c (presses line) evaluated := by
  refine ⟨afterLines_eq s h, ?_⟩
  rintro before line after rfl c d
  have hbefore : afterLines s before = c := afterLines_eq s fun l hl => h l (by simp [hl])
  rw [hbefore]
  exact exists_answer (h line (by simp)) c

/-- A line that evaluates twice, a command between blanks and a blank line. -/
theorem lines_press_twice :
    let first := "2×3= x+10=".toList
    let lines := [first, " :del".toList, "\t".toList]
    let d := (presses first).foldl Calculator.press (.withPrecision 12)
    (∀ line ∈ lines, ¬ Quits line) ∧
      afterLines {} lines =
        (lines.flatMap presses).foldl Calculator.press (.withPrecision 12) ∧
      (afterLines {} lines).text = "1".toList ∧
      (∃ evaluated, answer (start {}) first = (.shown evaluated d.display, d) ∧
        LastEvaluated (.withPrecision 12) (presses first) evaluated) ∧
      answer (start {}) first = (.shown (some "6+10".toList) "16".toList, d) := by
  intro first lines d
  have hlines : ∀ line ∈ lines, ¬ Quits line := by decide
  obtain ⟨hafter, hanswers⟩ := lines_press {} hlines
  exact ⟨hlines, hafter, by decide +kernel, hanswers [] first _ rfl, by decide +kernel⟩

end Session

end KeypadCalculator
