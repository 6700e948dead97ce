import Mathlib.Data.List.Basic
import KeypadCalculator.Proofs.Session.Presses

/-! A session reads its input line by line: what it has written does not depend on what comes later,
and line breaks of either kind are read alike. -/

namespace KeypadCalculator.Session

variable {s : Settings} {c : Calculator} {w : List Text} {line bad rest input : List UInt8}
  {lines before : List (List UInt8)} {t : Text}

/-- Complete lines, each with its line break. -/
def joined (lines : List (List UInt8)) : List UInt8 := lines.flatMap (· ++ [newline])

/-- A carriage return before every line feed. -/
def withReturns (input : List UInt8) : List UInt8 :=
  input.flatMap fun b => if b = newline then [carriageReturn, newline] else [b]

/-- A line of well-formed text that asks to leave. -/
def Leaves (line : List UInt8) : Prop := ∃ t, Text.ofBytes? line = some t ∧ Quits t

/-- A line of well-formed text that does not ask to leave. -/
def Stays (line : List UInt8) : Prop := ∃ t, Text.ofBytes? line = some t ∧ ¬ Quits t

theorem answer_of_quits (h : Quits t) (c : Calculator) : answer c t = (.quit, c) := by
  rw [Quits] at h
  simp only [answer, actions?]
  rw [if_pos h]

theorem turn_of_leaves (h : Leaves line) (s : Settings) (c : Calculator) :
    turn s c line = .quit := by
  obtain ⟨t, ht, hquits⟩ := h
  simp only [turn, ht, answer_of_quits hquits]

theorem exists_turn_of_stays (h : Stays line) (s : Settings) (c : Calculator) :
    ∃ output after, turn s c line = .reply output after := by
  obtain ⟨t, ht, hstays⟩ := h
  obtain ⟨evaluated, hanswer, -⟩ := exists_answer hstays c
  simp only [turn, ht, hanswer]
  exact ⟨_, _, rfl⟩

theorem turn_of_invalid (h : Text.ofBytes? line = none) (s : Settings) (c : Calculator) :
    turn s c line = .fault .notUtf8 := by
  simp only [turn, h]

/-- A carriage return at the end of a line is a blank, so that it does not matter. -/
theorem turn_concat_return (s : Settings) (c : Calculator) (line : List UInt8) :
    turn s c (line ++ [carriageReturn]) = turn s c line := by
  have hbytes := Text.ofBytes?_concat line (c := '\r') (by decide)
  have hactions : ∀ t : Text, actions? (t ++ ['\r']) = actions? t := by
    intro t
    simp only [actions?, Text.trim_concat (show isBlank '\r' = true by decide)]
  rw [turn, turn, show [carriageReturn] = [UInt8.ofNat '\r'.toNat] from rfl, hbytes]
  cases Text.ofBytes? line with
  | none => rfl
  | some t => simp only [Option.map_some, answer, hactions]

theorem turn_withoutReturn (s : Settings) (c : Calculator) (line : List UInt8) :
    turn s c (withoutReturn line) = turn s c line := by
  rw [withoutReturn]
  split
  · next hreturn =>
    obtain ⟨init, rfl⟩ := List.getLast?_eq_some_iff.mp hreturn
    rw [List.dropLast_concat, turn_concat_return]
  · rfl

theorem bne_newline (h : newline ∉ line) : ∀ b ∈ line, (b != newline) = true := by
  intro b hb
  rw [bne_iff_ne]
  rintro rfl
  exact h hb

theorem takeWhile_line (h : newline ∉ line) (rest : List UInt8) :
    (line ++ newline :: rest).takeWhile (· != newline) = line ∧
      (line ++ newline :: rest).dropWhile (· != newline) = newline :: rest :=
  takeWhile_dropWhile_append (bne_newline h) (by simp)

theorem nextLine?_line (h : newline ∉ line) (rest : List UInt8) :
    nextLine? (line ++ newline :: rest) = some (withoutReturn line, rest) := by
  obtain ⟨htake, hdrop⟩ := takeWhile_line h rest
  obtain ⟨b, bs, hinput⟩ := List.exists_cons_of_ne_nil
    (show line ++ newline :: rest ≠ [] by simp)
  rw [hinput] at htake hdrop ⊢
  simp only [nextLine?, htake, hdrop]

theorem nextLine?_last (h : newline ∉ line) (hne : line ≠ []) :
    nextLine? line = some (line, []) := by
  have hdrop := List.dropWhile_eq_nil_iff.mpr (bne_newline h)
  obtain ⟨b, bs, rfl⟩ := List.exists_cons_of_ne_nil hne
  simp only [nextLine?, hdrop]

theorem resume_nil (s : Settings) (w : List Text) (c : Calculator) :
    resume s w c [] = ⟨w.reverse.flatten, none⟩ := by
  rw [resume]
  rfl

/-- How a session goes on after its turn at a line. -/
def goOn (s : Settings) (w : List Text) (rest : List UInt8) : Turn → Transcript
  | .fault why => ⟨w.reverse.flatten, some why⟩
  | .quit => ⟨w.reverse.flatten, none⟩
  | .reply output after => resume s (output :: w) after rest

theorem resume_eq (h : nextLine? input = some (line, rest)) (s : Settings) (w : List Text)
    (c : Calculator) : resume s w c input = goOn s w rest (turn s c line) := by
  rw [resume]
  split
  · next hnone =>
    rw [h] at hnone
    cases hnone
  · next hsome =>
    rw [h] at hsome
    cases hsome
    cases turn s c line <;> rfl

/-- The session at a complete line, with either line break. -/
theorem resume_line (h : newline ∉ line) (s : Settings) (w : List Text) (c : Calculator)
    (rest : List UInt8) :
    resume s w c (line ++ newline :: rest) = goOn s w rest (turn s c line) := by
  rw [resume_eq (nextLine?_line h rest), turn_withoutReturn]

theorem joined_cons (line : List UInt8) (lines : List (List UInt8)) :
    joined (line :: lines) = line ++ newline :: joined lines := by
  simp [joined]

theorem joined_cons_append (line : List UInt8) (lines : List (List UInt8)) (rest : List UInt8) :
    joined (line :: lines) ++ rest = line ++ newline :: (joined lines ++ rest) := by
  rw [joined_cons, List.append_assoc, List.cons_append]

theorem isPrefix_resume (s : Settings) (w : List Text) (c : Calculator) (input : List UInt8) :
    w.reverse.flatten <+: (resume s w c input).output := by
  fun_induction resume s w c input with
  | case1 => exact List.prefix_rfl
  | case2 => exact List.prefix_rfl
  | case3 => exact List.prefix_rfl
  | case4 w c input line rest hnext output after hturn ih =>
    rw [List.reverse_cons, List.flatten_append] at ih
    exact (List.prefix_append _ _).trans ih

/-- What is written on some lines is written first, whatever follows them. -/
theorem isPrefix_resume_joined (hlines : ∀ line ∈ lines, newline ∉ line) (s : Settings)
    (w : List Text) (c : Calculator) (rest : List UInt8) :
    (resume s w c (joined lines)).output <+: (resume s w c (joined lines ++ rest)).output := by
  induction lines generalizing w c with
  | nil =>
    rw [joined, List.flatMap_nil, List.nil_append, resume_nil]
    exact isPrefix_resume s w c rest
  | cons line lines ih =>
    have hline : newline ∉ line := hlines line (by simp)
    rw [joined_cons_append, joined_cons, resume_line hline, resume_line hline]
    cases turn s c line with
    | fault why => exact List.prefix_rfl
    | quit => exact List.prefix_rfl
    | reply output after => exact ih (fun l hl => hlines l (by simp [hl])) _ _

theorem leaves_or_stays (h : Text.ofBytes? line ≠ none) : Leaves line ∨ Stays line := by
  obtain ⟨t, ht⟩ := Option.ne_none_iff_exists'.mp h
  by_cases hquits : Quits t
  · exact Or.inl ⟨t, ht, hquits⟩
  · exact Or.inr ⟨t, ht, hquits⟩

/-- A line that asks to leave ends the session, whatever follows it. -/
theorem exists_resume_leaves (hbefore : ∀ line ∈ before, newline ∉ line)
    (hvalid : ∀ line ∈ before, Text.ofBytes? line ≠ none) (hline : newline ∉ line)
    (hleaves : Leaves line) (s : Settings) (w : List Text) (c : Calculator) :
    ∃ output, ∀ rest, resume s w c (joined (before ++ [line]) ++ rest) = ⟨output, none⟩ := by
  induction before generalizing w c with
  | nil =>
    refine ⟨w.reverse.flatten, fun rest => ?_⟩
    rw [List.nil_append, joined_cons_append, resume_line hline, turn_of_leaves hleaves, goOn]
  | cons first before ih =>
    have hfirst : newline ∉ first := hbefore first (by simp)
    simp only [List.cons_append, joined_cons_append, resume_line hfirst]
    -- An earlier line may leave as well.
    rcases leaves_or_stays (hvalid first (by simp)) with hearly | hstays
    · exact ⟨w.reverse.flatten, fun rest => by rw [turn_of_leaves hearly, goOn]⟩
    · obtain ⟨output, after, hturn⟩ := exists_turn_of_stays hstays s c
      simp only [hturn]
      exact ih (fun l hl => hbefore l (by simp [hl])) (fun l hl => hvalid l (by simp [hl])) _ _

theorem resume_bad (hbad : newline ∉ bad) (hinvalid : Text.ofBytes? bad = none)
    (hrest : rest = [] ∨ rest.head? = some newline) (s : Settings) (w : List Text)
    (c : Calculator) : resume s w c (bad ++ rest) = ⟨w.reverse.flatten, some .notUtf8⟩ := by
  rcases hrest with rfl | hrest
  · have hne : bad ≠ [] := by
      rintro rfl
      rw [show Text.ofBytes? [] = some [] from Text.ofBytes?_toBytes []] at hinvalid
      cases hinvalid
    rw [List.append_nil, resume_eq (nextLine?_last hbad hne), turn_of_invalid hinvalid, goOn]
  · obtain ⟨rest, rfl⟩ := List.head?_eq_some_iff.mp hrest
    rw [resume_line hbad, turn_of_invalid hinvalid, goOn]

/-- A line that is not text ends the session with a fault, if it is reached. -/
theorem resume_invalid (hlines : ∀ line ∈ lines, newline ∉ line)
    (hstay : ∀ line ∈ lines, Stays line) (hbad : newline ∉ bad)
    (hinvalid : Text.ofBytes? bad = none) (hrest : rest = [] ∨ rest.head? = some newline)
    (s : Settings) (w : List Text) (c : Calculator) : resume s w c (joined lines ++ (bad ++ rest)) =
      ⟨(resume s w c (joined lines)).output, some .notUtf8⟩ := by
  induction lines generalizing w c with
  | nil =>
    rw [joined, List.flatMap_nil, List.nil_append, resume_nil]
    exact resume_bad hbad hinvalid hrest s w c
  | cons line lines ih =>
    have hline : newline ∉ line := hlines line (by simp)
    obtain ⟨output, after, hturn⟩ := exists_turn_of_stays (hstay line (by simp)) s c
    rw [joined_cons_append, joined_cons, resume_line hline, resume_line hline, hturn]
    exact ih (fun l hl => hlines l (by simp [hl])) (fun l hl => hstay l (by simp [hl])) _ _

theorem withReturns_of_not_mem (h : newline ∉ line) : withReturns line = line := by
  rw [withReturns, List.flatMap_congr (g := fun b => [b]), List.flatMap_singleton']
  intro b hb
  rw [if_neg]
  rintro rfl
  exact h hb

theorem withReturns_line (h : newline ∉ line) (rest : List UInt8) :
    withReturns (line ++ newline :: rest) =
      (line ++ [carriageReturn]) ++ newline :: withReturns rest := by
  have hline := withReturns_of_not_mem h
  rw [withReturns] at hline ⊢
  rw [List.flatMap_append, hline, List.flatMap_cons, if_pos rfl]
  simp [withReturns]

theorem resume_withReturns (s : Settings) (w : List Text) (c : Calculator) (input : List UInt8) :
    resume s w c (withReturns input) = resume s w c input := by
  induction hlength : input.length using Nat.strongRecOn generalizing w c input with
  | ind n ih =>
    subst hlength
    by_cases hmem : newline ∈ input
    · obtain ⟨line, rest, rfl, hline⟩ := List.eq_append_cons_of_mem hmem
      have hreturn : newline ∉ line ++ [carriageReturn] := by simpa [hline] using by decide
      have hshorter : rest.length < (line ++ newline :: rest).length := by
        rw [List.length_append, List.length_cons]
        omega
      rw [withReturns_line hline, resume_line hreturn, resume_line hline, turn_concat_return]
      cases turn s c line with
      | fault why => rfl
      | quit => rfl
      | reply output after => exact ih _ hshorter _ _ rest rfl
    · rw [withReturns_of_not_mem hmem]

/-- A session depends on its input up to the lines that it has answered, and ends where a line asks
to leave or is no text; line breaks with carriage returns change nothing. -/
theorem run_causal (s : Settings) (hlines : ∀ line ∈ lines, newline ∉ line) (rest : List UInt8) :
    (run s (joined lines)).output <+: (run s (joined lines ++ rest)).output ∧
    (∀ before leaving after, lines = before ++ leaving :: after →
      (∀ line ∈ before, Text.ofBytes? line ≠ none) → Leaves leaving →
      run s (joined lines ++ rest) = run s (joined lines) ∧
        (run s (joined lines)).fault = none) ∧
    (∀ bad, newline ∉ bad → Text.ofBytes? bad = none → (∀ line ∈ lines, Stays line) →
      rest = [] ∨ rest.head? = some newline →
      run s (joined lines ++ (bad ++ rest)) =
        ⟨(run s (joined lines)).output, some .notUtf8⟩) ∧
    ∀ input, run s (withReturns input) = run s input := by
  refine ⟨isPrefix_resume_joined hlines _ _ _ _, ?_, ?_, fun _ => resume_withReturns _ _ _ _⟩
  · rintro before leaving after rfl hvalid hleaves
    obtain ⟨output, hrun⟩ := exists_resume_leaves (fun l hl => hlines l (by simp [hl])) hvalid
      (hlines leaving (by simp)) hleaves s [s.prompt] (start s)
    have hjoined : joined (before ++ leaving :: after) =
        joined (before ++ [leaving]) ++ joined after := by simp [joined]
    rw [hjoined, List.append_assoc, run, run, hrun, hrun]
    exact ⟨rfl, rfl⟩
  · intro bad hbad hinvalid hstay hrest
    exact resume_invalid hlines hstay hbad hinvalid hrest _ _ _

/-- Behind a line that leaves, bytes that are no text are not read; before it, they end the
session. -/
theorem run_causal_cut :
    let s : Settings := { echoExpression := true }
    let sum := Text.toBytes "1+2=".toList
    let leave := Text.toBytes " :q".toList
    let bad : List UInt8 := [0x31, 0xFF]
    (∀ line ∈ [sum, leave], newline ∉ line) ∧ Leaves leave ∧ Stays sum ∧ newline ∉ bad ∧
      Text.ofBytes? bad = none ∧
      run s (joined [sum, leave] ++ bad) = run s (joined [sum, leave]) ∧
      run s (joined [sum] ++ (bad ++ newline :: leave)) =
        ⟨(run s (joined [sum])).output, some .notUtf8⟩ ∧
      (run s (joined [sum])).output = "> 1+2 =\n3\n> ".toList ∧
      run s (withReturns (joined [sum])) = run s (joined [sum]) := by
  intro s sum leave bad
  have hlines : ∀ line ∈ [sum, leave], newline ∉ line := by decide
  have hline : ∀ line ∈ [sum], newline ∉ line := by decide
  have hleaves : Leaves leave := ⟨_, Text.ofBytes?_toBytes _, by decide⟩
  have hstays : Stays sum := ⟨_, Text.ofBytes?_toBytes _, by decide⟩
  have hvalid : ∀ line ∈ [sum], Text.ofBytes? line ≠ none := by
    intro line hl
    rw [List.mem_singleton.mp hl, Text.ofBytes?_toBytes]
    exact Option.some_ne_none _
  have hbad : newline ∉ bad := by decide
  have hinvalid : Text.ofBytes? bad = none := by decide +kernel
  obtain ⟨-, hleave, -, -⟩ := run_causal s hlines bad
  obtain ⟨-, -, hfault, hreturns⟩ := run_causal s hline (newline :: leave)
  exact ⟨hlines, hleaves, hstays, hbad, hinvalid,
    (hleave [sum] leave [] rfl hvalid hleaves).1,
    hfault bad hbad hinvalid (List.forall_mem_singleton.mpr hstays) (Or.inr rfl),
    by decide +kernel, hreturns _⟩

end KeypadCalculator.Session
