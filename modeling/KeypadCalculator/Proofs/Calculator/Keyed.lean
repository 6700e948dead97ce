import KeypadCalculator.Session
import KeypadCalculator.Proofs.Expression.Place
import KeypadCalculator.Proofs.Typing.Readable

/-! Keys and buttons never type what cannot be read, alone or in the lines of a session. -/

namespace KeypadCalculator

open Buffer

variable {p : ℕ} {a : Action} {c k : Calculator} {t : Text} {ss : List Symbol} {why : Failure}

/-- The actions that keys, typed characters and buttons ask for. -/
inductive Action.IsKeyed : Action → Prop
  | key {name a} : Action.ofKey? name = some a → IsKeyed a
  | char {typed a} : Action.ofChar? typed = some a → IsKeyed a
  | button {label b} : Keypad.button? label = some b → IsKeyed b.action

/-- A failure of an expression whose characters could all be read. -/
inductive Failure.IsStructural : Failure → Prop
  | unbalanced (opening closing) : IsStructural (.rejected (.unbalanced opening closing))
  | unexpected (found) : IsStructural (.malformed (.unexpected found))
  | unexpectedEnd : IsStructural (.malformed .unexpectedEnd)
  | tooDeep (levels) : IsStructural (.malformed (.tooDeep levels))
  | notFinite (value) : IsStructural (.notFinite value)

/-- What is in the buffer is arithmetic with digits before its points, and it can fail, and what is
shown has failed, only as a whole. -/
structure Calculator.Readable (c : Calculator) : Prop where
  alphabet : ∀ typed ∈ c.text,
    typed.isDigit = true ∨ typed ∈ ['+', '-', '*', '/', '(', ')', '.']
  points : ∀ before after, c.text = before ++ '.' :: after →
    ∃ digit ∈ before.getLast?, digit.isDigit = true
  failures : ∀ why, c.evaluate.1 = .error why → why.IsStructural
  shown : ∀ why, c.failure = some why → why.IsStructural

def Action.typesKeyChar : Action → Bool
  | append typed => isKeyChar typed
  | erase | clear | evaluate => true

theorem ofChar?_eq (c : Char) : Action.ofChar? c =
    if c = '=' then some .evaluate else if isKeyChar c then some (.append c) else none := by
  have hkey : (c.isDigit || c ∈ ['+', '-', '*', '/', '.', '(', ')']) = isKeyChar c := by
    rw [isKeyChar, Bool.eq_iff_iff]
    simp only [Bool.or_eq_true, decide_eq_true_eq, List.mem_cons, List.not_mem_nil, or_false]
    tauto
  rw [Action.ofChar?, hkey]

theorem typesKeyChar_ofChar? {typed : Char} (h : Action.ofChar? typed = some a) :
    a.typesKeyChar = true := by
  rw [ofChar?_eq] at h
  split_ifs at h with _ hkey
  · cases h
    rfl
  · cases h
    exact hkey

theorem typesKeyChar_ofKey? {name : Text} (h : Action.ofKey? name = some a) :
    a.typesKeyChar = true := by
  -- Only unfolded: `simp` would compare the names of the keys letter by letter.
  delta Action.ofKey? at h
  split_ifs at h
  · cases h
    rfl
  · cases h
    rfl
  · cases h
    rfl
  · split at h
    · exact typesKeyChar_ofChar? h
    · cases h

theorem Action.IsKeyed.typesKeyChar (h : a.IsKeyed) : a.typesKeyChar = true := by
  cases h with
  | key h => exact typesKeyChar_ofKey? h
  | char h => exact typesKeyChar_ofChar? h
  | button h =>
    have hall : Keypad.rows.flatten.all (fun b => b.action.typesKeyChar) = true := by decide
    exact List.all_eq_true.mp hall _ (List.mem_of_find?_eq_some h)

/-- The states that keys and buttons lead to. -/
inductive Calculator.Keyed (p : ℕ) : Calculator → Prop
  | start : Keyed p (withPrecision p)
  | press {c : Calculator} {a : Action} : a.IsKeyed → Keyed p c → Keyed p (c.press a)

namespace Calculator

theorem Keyed.reachable (h : Keyed p c) : Reachable p c := by
  induction h with
  | start => exact .start
  | press _ _ ih => exact ih.press _

theorem isKeyChar_numeral {ds : Text} (hds : ∀ c ∈ ds, c.isDigit = true) :
    ∀ c ∈ ds, isKeyChar c = true := by
  intro c hc
  simp [isKeyChar, hds c hc]

theorem isKeyChar_decimal (h : PlainDecimal t) : ∀ c ∈ t, isKeyChar c = true := by
  cases h with
  | whole hds => exact isKeyChar_numeral hds.digits
  | point hds hfs =>
    intro c hc
    rw [List.mem_append, List.mem_cons] at hc
    rcases hc with hc | rfl | hc
    · exact isKeyChar_numeral hds.digits c hc
    · decide
    · exact isKeyChar_numeral hfs.digits c hc

theorem isKeyChar_number (h : PlainNumber t) : ∀ c ∈ t, isKeyChar c = true := by
  cases h with
  | positive h => exact isKeyChar_decimal h
  | negative h _ =>
    intro c hc
    rcases List.mem_cons.mp hc with rfl | hc
    · decide
    · exact isKeyChar_decimal h c hc

theorem isKeyChar_append {b : Buffer} {typed : Char} (hb : ∀ c ∈ b.text, isKeyChar c = true)
    (htyped : isKeyChar typed = true) : ∀ c ∈ (b.append typed).text, isKeyChar c = true := by
  have hpush : ∀ c ∈ (b.push typed).text, isKeyChar c = true := by
    intro c hc
    rw [text_push, List.mem_append, List.mem_singleton] at hc
    rcases hc with hc | rfl
    · exact hb c hc
    · exact htyped
  by_cases hadmits : b.Admits typed
  · rwa [append_of_admits hadmits]
  · rcases append_of_not_admits hadmits with he | ⟨rfl, -, he⟩
    · rwa [he]
    · intro c hc
      rw [he, text_push, text_push, List.mem_append, List.mem_append] at hc
      rcases hc with (hc | hc) | hc
      · exact hb c hc
      · obtain rfl := List.mem_singleton.mp hc
        decide
      · obtain rfl := List.mem_singleton.mp hc
        decide

/-- Whatever is pressed leaves only characters of the keys. -/
theorem isKeyChar_press (hc : ∀ typed ∈ c.text, isKeyChar typed = true)
    (ha : a.typesKeyChar = true) : ∀ typed ∈ (c.press a).text, isKeyChar typed = true := by
  cases a with
  | append typed => exact isKeyChar_append hc ha
  | erase =>
    intro typed htyped
    apply hc
    have hmem : typed ∈ c.buffer.dropLast.text := htyped
    rw [text_dropLast] at hmem
    exact List.mem_of_mem_dropLast hmem
  | clear =>
    intro typed htyped
    cases htyped
  | evaluate =>
    rw [press]
    rcases evaluate_cases c with ⟨-, he⟩ | ⟨-, ⟨value, hvalue, he⟩ | ⟨why, -, he⟩⟩
    · rwa [he]
    · rw [he, Calculator.text, text_ofText]
      exact isKeyChar_number (Binary64.plainNumber_text (isFinite_of_evaluate hvalue))
    · rw [he]
      cases hkeeps : why.keepsText with
      | true => exact hc
      | false =>
        intro typed htyped
        cases htyped

theorem Keyed.isKeyChar (h : Keyed p c) : ∀ typed ∈ c.text, isKeyChar typed = true := by
  induction h with
  | start =>
    intro typed htyped
    cases htyped
  | press ha _ ih => exact isKeyChar_press ih ha.typesKeyChar

theorem Keyed.exists_scans (h : Keyed p c) : ∃ ss, Scans c.text ss :=
  KeypadCalculator.exists_scans h.isKeyChar h.reachable.typable.points

/-- Errors of the parser are about whole tokens. -/
theorem isStructural_of_strays {q : Place} {ts : List Token} {e : SyntaxError}
    (h : Strays q ts e) : (Failure.malformed e).IsStructural := by
  rcases h.error_cases with rfl | rfl | ⟨token, -, rfl⟩
  · exact .unexpectedEnd
  · exact .tooDeep _
  · exact .unexpected _

/-- What is written in symbols passes the screen but for its parentheses, and the scanner. -/
theorem isStructural_of_scans (ht : Scans t ss)
    (h : KeypadCalculator.evaluate t p = .error why) : why.IsStructural := by
  obtain ⟨tokens, hscan, -⟩ := Token.scan_eq_ok_iff.mpr ht
  rw [KeypadCalculator.evaluate, screen_of_scans ht] at h
  split at h
  · next rejection hscreen =>
    cases h
    split_ifs at hscreen
    cases hscreen
    exact .unbalanced _ _
  · next plain hscreen =>
    split_ifs at hscreen
    cases hscreen
    rw [Parser.valueOfText, hscan] at h
    cases hvalue : Parser.value tokens with
    | error e =>
      simp only [hvalue] at h
      cases h
      exact isStructural_of_strays (Parser.strays_of_value hvalue)
    | ok value =>
      simp only [hvalue] at h
      split_ifs at h
      cases h
      exact .notFinite _

theorem isStructural_evaluate (ht : ∃ ss, Scans c.text ss) (h : c.evaluate.1 = .error why) :
    why.IsStructural := by
  obtain ⟨ss, hss⟩ := ht
  rcases evaluate_cases c with ⟨-, he⟩ | ⟨-, ⟨value, -, he⟩ | ⟨other, hother, he⟩⟩ <;> rw [he] at h
  · cases h
  · cases h
  · cases h
    exact isStructural_of_scans hss hother

theorem isStructural_press (ht : ∃ ss, Scans c.text ss)
    (hc : ∀ why, c.failure = some why → why.IsStructural) (a : Action) (why : Failure)
    (h : (c.press a).failure = some why) : why.IsStructural := by
  obtain ⟨ss, hss⟩ := ht
  rcases press_cases c a with ⟨_, he⟩ | he | ⟨_, -, he⟩ | ⟨other, hother, he⟩ <;> rw [he] at h
  · cases h
  · exact hc why h
  · cases h
  · cases h
    exact isStructural_of_scans hss hother

theorem Keyed.isStructural (h : Keyed p c) (why : Failure) (hc : c.failure = some why) :
    why.IsStructural := by
  induction h generalizing why with
  | start => cases hc
  | press ha hk ih => exact isStructural_press hk.exists_scans ih _ why hc

theorem Keyed.readable (h : Keyed p c) : Readable c := by
  refine ⟨?_, ?_, ?_, h.isStructural⟩
  · intro typed htyped
    have hkey := h.isKeyChar typed htyped
    simpa [KeypadCalculator.isKeyChar] using hkey
  · intro before after hsplit
    exact digit_before_point h.reachable.typable h.isKeyChar hsplit
  · intro why hwhy
    exact isStructural_evaluate h.exists_scans hwhy

end Calculator

namespace Session

/-- The calculator behind some lines. Lines behind one that asks to leave are read as well. -/
def afterLines (s : Settings) (lines : List Text) : Calculator :=
  lines.foldl (fun c line => (answer c line).2) (start s)

theorem isKeyed_ofGlyph? {typed : Char} (h : Action.ofGlyph? typed = some a) : a.IsKeyed := by
  rcases Option.or_eq_some_iff.mp h with h | ⟨-, h⟩
  · exact .char h
  · obtain ⟨b, hb, rfl⟩ := Option.map_eq_some_iff.mp h
    exact .button hb

/-- A line presses keys. -/
theorem isKeyed_of_actions? {line : Text} {actions : List Action}
    (h : actions? line = some actions) : ∀ a ∈ actions, a.IsKeyed := by
  have henter : Action.ofKey? "Enter".toList = some .evaluate := rfl
  have hbackspace : Action.ofKey? "Backspace".toList = some .erase := rfl
  have hescape : Action.ofKey? "Escape".toList = some .clear := rfl
  simp only [actions?] at h
  split_ifs at h <;> cases h
  · simpa using Action.IsKeyed.key hescape
  · simpa using Action.IsKeyed.key hbackspace
  · simpa using Action.IsKeyed.key henter
  · intro a ha
    obtain ⟨typed, -, htyped⟩ := List.mem_filterMap.mp ha
    exact isKeyed_ofGlyph? htyped

theorem keyed_foldl {actions : List Action} (hc : c.Keyed p) (h : ∀ a ∈ actions, a.IsKeyed) :
    (actions.foldl Calculator.press c).Keyed p := by
  induction actions generalizing c with
  | nil => exact hc
  | cons a actions ih =>
    exact ih (hc.press (h a (by simp))) (fun b hb => h b (by simp [hb]))

/-- An evaluation in a line looks at the text before the calculator does, and where the text is blank
the calculator would have been left alone as well. -/
theorem calculator_press (q : Progress) (a : Action) :
    (q.press a).calculator = q.calculator.press a := by
  rw [Progress.press]
  split
  · next ha =>
    rw [ha, Progress.evaluate]
    split
    · next hblank => rw [Calculator.press, Calculator.evaluate_of_isBlank hblank]
    · rfl
  · rfl

theorem calculator_foldl_press (actions : List Action) (q : Progress) :
    (actions.foldl Progress.press q).calculator = actions.foldl Calculator.press q.calculator := by
  induction actions generalizing q with
  | nil => rfl
  | cons a actions ih => rw [List.foldl_cons, List.foldl_cons, ih, calculator_press]

theorem keyed_answer (hc : c.Keyed p) (line : Text) : (answer c line).2.Keyed p := by
  rw [answer]
  split
  · exact hc
  · next actions hactions =>
    have hkeyed := keyed_foldl hc (isKeyed_of_actions? hactions)
    rwa [← calculator_foldl_press actions ⟨none, c⟩] at hkeyed

theorem keyed_afterLines (s : Settings) (lines : List Text) :
    (afterLines s lines).Keyed s.precision.toNat := by
  induction lines using List.reverseRecOn with
  | nil => exact .start
  | append_singleton lines line ih =>
    rw [afterLines, List.foldl_append]
    exact keyed_answer ih line

end Session

/-- After any keys and buttons, and at every moment of a session, the text is plain arithmetic in
which a digit stands before every point, and no failure is about a character or a literal. -/
theorem readable_of_keys :
    (∀ p c, Calculator.Keyed p c → c.Readable) ∧
      ∀ (s : Settings) (lines : List Text) (line : Text) (done left : List Action),
        (Session.afterLines s lines).Readable ∧
        (Session.actions? line = some (done ++ left) →
          (done.foldl Calculator.press (Session.afterLines s lines)).Readable) := by
  refine ⟨fun p c h => h.readable, ?_⟩
  intro s lines line done left
  have hkeyed := Session.keyed_afterLines s lines
  refine ⟨hkeyed.readable, fun hline => ?_⟩
  have hdone : ∀ a ∈ done, a.IsKeyed := fun a ha =>
    Session.isKeyed_of_actions? hline a (List.mem_append_left _ ha)
  exact (Session.keyed_foldl hkeyed hdone).readable

/-- A point on its own gets a zero, a second one is dropped, and what fails in the middle of a line
fails because of its parentheses. -/
theorem readable_of_keys_points :
    let k := (Calculator.withPrecision 3).press (.append '.')
    let c := Session.afterLines {} ["1..5÷(3".toList]
    k.text = "0.".toList ∧ k.Readable ∧ c.text = "1.5/(3".toList ∧ c.Readable ∧
      Session.actions? "=⌫".toList = some ([.evaluate] ++ [.erase]) ∧
      (c.press .evaluate).failure = some (.rejected (.unbalanced 1 0)) ∧
      (c.press .evaluate).Readable := by
  intro k c
  have hpoint : Action.ofChar? '.' = some (.append '.') := rfl
  have hk : Calculator.Keyed 3 k := .press (.char hpoint) .start
  have hline : Session.actions? "=⌫".toList = some ([.evaluate] ++ [.erase]) := by decide +kernel
  obtain ⟨hc, hpress⟩ :=
    readable_of_keys.2 {} ["1..5÷(3".toList] "=⌫".toList [.evaluate] [.erase]
  exact ⟨by decide +kernel, readable_of_keys.1 3 k hk, by decide +kernel, hc, hline,
    by decide +kernel, hpress hline⟩

end KeypadCalculator
