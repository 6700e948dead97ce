import Mathlib.Data.List.Nodup
import KeypadCalculator.Proofs.Toml.Strings

/-!
A document of entries is read as the table of them, unless one has an integer that is too large.
Values are read first, then the lines they stand in, then the document as a whole.
-/

namespace KeypadCalculator.Toml

variable {c : Char} {key t u w w' b after rest : Text} {v : Value} {e : Text × Value}
  {root entries : Table}

/-- Nothing more stands on the line. -/
def EndsLine (rest : Text) : Prop := ∀ c ∈ rest.head?, c = '\n' ∨ c = '\r'

theorem endsLine_break (h : Break b) (rest : Text) : EndsLine (b ++ rest) := by
  cases h <;> rintro c ⟨⟩ <;> simp

theorem not_mem_of_all {p : Char → Bool} (h : p c) {marks : Text}
    (hmarks : marks.all fun d => !p d) : c ∉ marks := by
  intro hc
  simpa [h] using List.all_eq_true.mp hmarks c hc

theorem splitWord_append (hword : t.all isWordChar = true) (hrest : EndsLine rest) :
    splitWord (t ++ rest) = (t, rest) := by
  have hbreak : ∀ c ∈ rest.head?, isWordChar c = false := by
    intro c hc
    rcases hrest c hc with rfl | rfl <;> rfl
  obtain ⟨htake, hdrop⟩ := takeWhile_dropWhile_append (List.all_eq_true.mp hword) hbreak
  unfold splitWord
  rw [htake, hdrop]
  split
  · rcases hrest ' ' rfl with hspace | hspace <;> cases hspace
  · rfl

theorem value?_word (hne : t ≠ []) (hword : t.all isWordChar = true) (hrest : EndsLine rest) :
    value? maxNesting (t ++ rest) = (scalar? t).map fun v => (v, rest) := by
  have hsplit := splitWord_append hword hrest
  cases t with
  | nil => exact absurd rfl hne
  | cons c u =>
    have hc : c ∉ ['[', '{', '"', '\''] :=
      not_mem_of_all (List.all_eq_true.mp hword c List.mem_cons_self) (by decide)
    simp only [List.mem_cons, not_or] at hc
    obtain ⟨hbracket, hbrace, hquote, happostrophe, -⟩ := hc
    rw [List.cons_append] at hsplit ⊢
    rw [value?, hsplit]
    all_goals simp_all

theorem Integer.ne_nil {z : ℤ} (h : Integer z t) : t ≠ [] := by
  obtain ⟨sign, u, rfl, -, hu⟩ := h.exists_sign
  obtain ⟨c, v, rfl, -⟩ := hu.head
  simp

theorem Scalar.value? (h : Scalar v t) (hrest : EndsLine rest) :
    value? maxNesting (t ++ rest) = if v.Fits then some (v, rest) else none := by
  cases h with
  | @integer z t h =>
    have hcond : (Value.integer z).Fits ↔ Fits z := Iff.rfl
    rw [value?_word h.ne_nil h.all_isWordChar hrest, h.scalar?]
    by_cases hfits : Fits z
    · rw [if_pos hfits, if_pos (hcond.mpr hfits), Option.map_some]
    · rw [if_neg hfits, if_neg (hcond.not.mpr hfits), Option.map_none]
  | true =>
    rw [value?_word (by decide) (by decide) hrest]
    rfl
  | false =>
    rw [value?_word (by decide) (by decide) hrest]
    rfl
  | @text t u h =>
    have hfits : (Value.text t).Fits := trivial
    have hquote (q : Char) (hq : q ≠ '\n' ∧ q ≠ '\r') : rest.head? ≠ some q := by
      intro hhead
      rcases hrest q hhead with rfl | rfl
      · exact hq.1 rfl
      · exact hq.2 rfl
    have hread := h.quoted? (hquote '"' (by decide)) (hquote '\'' (by decide))
    obtain ⟨q, v, rfl, hq⟩ := h.head
    rw [if_pos hfits]
    rw [List.cons_append] at hread ⊢
    rcases hq with rfl | rfl
    · rw [Toml.value?, hread, Option.map_some]
    · rw [Toml.value?, hread, Option.map_some]

/-- No value starts with a blank. -/
theorem Scalar.head (h : Scalar v t) : ∃ c u, t = c :: u ∧ isSpace c = Bool.false := by
  cases h with
  | @integer z t h =>
    have hword := h.all_isWordChar
    have hne := h.ne_nil
    cases t with
    | nil => exact absurd rfl hne
    | cons c u =>
      have hc : c ∉ [' ', '\t'] :=
        not_mem_of_all (List.all_eq_true.mp hword c List.mem_cons_self) (by decide)
      exact ⟨c, u, rfl, by simpa [isSpace] using hc⟩
  | true => exact ⟨_, _, rfl, rfl⟩
  | false => exact ⟨_, _, rfl, rfl⟩
  | text h =>
    obtain ⟨q, v, rfl, hq⟩ := h.head
    refine ⟨q, v, rfl, ?_⟩
    rcases hq with rfl | rfl <;> rfl

theorem define_eq (h : key ∉ root.map Prod.fst) :
    Table.define key v root = some (root ++ [(key, v)]) := by
  unfold Table.define
  induction root with
  | nil => rfl
  | cons entry root ih =>
    simp only [List.map_cons, List.mem_cons, not_or] at h
    rw [Table.update, if_neg (Ne.symm h.1), ih h.2]
    rfl

theorem IsBareKey.head (h : IsBareKey key) : ∃ c u, key = c :: u ∧
    c ∉ ['\n', '\r', ' ', '\t', '#', '[', '"', '\'', byteOrderMark] := by
  cases key with
  | nil => exact absurd rfl h.nonempty
  | cons c u =>
    have hc : isBareKeyChar c := List.all_eq_true.mp h.bare c (by simp)
    exact ⟨c, u, rfl, not_mem_of_all hc (by decide)⟩

theorem key?_append (h : IsBareKey key) (hw : ∀ c ∈ w, isSpace c = true) (u : Text) :
    key? [] (key ++ (w ++ '=' :: u)) = some ([], key, w ++ '=' :: u) := by
  have hspaces : skipSpaces (w ++ '=' :: u) = '=' :: u :=
    skipSpaces_append hw (by rintro c ⟨⟩; rfl)
  have hstop : ∀ c ∈ (w ++ '=' :: u).head?, isBareKeyChar c = false := by
    cases w with
    | nil =>
      rintro c ⟨⟩
      rfl
    | cons c w =>
      rintro c ⟨⟩
      have hc := hw c List.mem_cons_self
      simp only [isSpace, Bool.or_eq_true, beq_iff_eq] at hc
      rcases hc with rfl | rfl <;> rfl
  obtain ⟨htake, hdrop⟩ := takeWhile_dropWhile_append (List.all_eq_true.mp h.bare) hstop
  have hsimple : simpleKey? (key ++ (w ++ '=' :: u)) = some (key, w ++ '=' :: u) := by
    obtain ⟨c, v, rfl, hc⟩ := h.head
    simp only [List.mem_cons, not_or] at hc
    rw [List.cons_append] at htake hdrop ⊢
    rw [simpleKey?, htake, hdrop]
    · rfl
    all_goals simp_all
  rw [key?, hsimple]
  simp [maxNesting, hspaces]

/-- The reader of trivia asks for the same marks that no bare key starts with. -/
theorem skipTrivia_append (h : IsBareKey key) (rest : Text) :
    skipTrivia false (key ++ rest) = key ++ rest := by
  obtain ⟨c, u, rfl, hc⟩ := h.head
  simp only [List.mem_cons, not_or] at hc
  obtain ⟨hnewline, hreturn, hspace, htab, hhash, -⟩ := hc
  rw [List.cons_append, skipTrivia]
  · simp [isSpace, hspace, htab, hhash]
  all_goals simp_all

section Lines

variable (hkey : IsBareKey key) (hw : ∀ c ∈ w, isSpace c = true) (hw' : ∀ c ∈ w', isSpace c = true)
  (hu : ∀ c ∈ u.head?, isSpace c = false)

include hkey hw hw' hu

theorem entry?_append :
    entry? skipSpaces (value? maxNesting) (key ++ (w ++ '=' :: (w' ++ u))) =
      (value? maxNesting u).map fun (v, rest) => ([], key, v, rest) := by
  have hequals : skipSpaces (w ++ '=' :: (w' ++ u)) = '=' :: (w' ++ u) :=
    skipSpaces_append hw (by rintro c ⟨⟩; rfl)
  have hvalue : skipSpaces (w' ++ u) = u := skipSpaces_append hw' hu
  simp only [hequals, hvalue, key?_append hkey hw, entry?]

/-- A key that is new gets its value. -/
theorem line?_append (hnew : key ∉ root.map Prod.fst) :
    Document.line? ⟨root, []⟩ (key ++ (w ++ '=' :: (w' ++ u))) =
      (value? maxNesting u).map fun (v, rest) => (⟨root ++ [(key, v)], []⟩, rest) := by
  have hassign (v : Value) :
      Document.assign ⟨root, []⟩ [] key v = some ⟨root ++ [(key, v)], []⟩ :=
    congrArg (Option.map _) (define_eq hnew)
  have hentry := entry?_append hkey hw hw' hu
  obtain ⟨c, k, rfl, hc⟩ := hkey.head
  have hbracket : c ≠ '[' := by
    rintro rfl
    simp at hc
  rw [List.cons_append] at hentry ⊢
  rw [Document.line?, hentry]
  · cases value? maxNesting u with
    | none => rfl
    | some read => simp only [Option.map_some, hassign]
  all_goals simp [hbracket]

theorem read?_append_of_value? (hnew : key ∉ root.map Prod.fst)
    (hvalue : value? maxNesting u = some (v, after)) (hend : endLine? after = some rest)
    (hshorter : rest.length ≤ u.length) :
    Document.read? ⟨root, []⟩ (key ++ (w ++ '=' :: (w' ++ u))) =
      Document.read? ⟨root ++ [(key, v)], []⟩ rest := by
  have hline := line?_append hkey hw hw' hu hnew
  have hskip := skipTrivia_append hkey (w ++ '=' :: (w' ++ u))
  have hlength : rest.length < (key ++ (w ++ '=' :: (w' ++ u))).length := by
    simp only [List.length_append, List.length_cons]
    omega
  rw [hvalue, Option.map_some] at hline
  rw [Document.read?, hskip]
  split
  · next hnil =>
    rw [hnil] at hlength
    cases hlength
  · simp only [hline, hend, dif_pos hlength]

theorem read?_append_eq_none (hnew : key ∉ root.map Prod.fst)
    (hvalue : value? maxNesting u = none) :
    Document.read? ⟨root, []⟩ (key ++ (w ++ '=' :: (w' ++ u))) = none := by
  have hline := line?_append hkey hw hw' hu hnew
  have hskip := skipTrivia_append hkey (w ++ '=' :: (w' ++ u))
  rw [hvalue, Option.map_none] at hline
  rw [Document.read?, hskip]
  split
  · next hnil => simp at hnil
  · simp only [hline]

end Lines

theorem endLine?_break (h : Break b) (t : Text) : endLine? (b ++ t) = some t := by
  cases h <;> rfl

/-- One line more is one entry more, if it fits. -/
theorem Entry.read? (h : Entry e t) (hnew : e.1 ∉ root.map Prod.fst) (hafter : EndsLine after)
    (hend : endLine? after = some rest) (hshorter : rest.length ≤ after.length) :
    Document.read? ⟨root, []⟩ (t ++ after) =
      if e.2.Fits then Document.read? ⟨root ++ [e], []⟩ rest else none := by
  obtain @⟨key, v, w, w', t, hkey, hw, hw', hv⟩ := h
  obtain ⟨c, u, rfl, hc⟩ := hv.head
  have hsplit : key ++ (w ++ '=' :: (w' ++ c :: u)) ++ after =
      key ++ (w ++ '=' :: (w' ++ (c :: u ++ after))) := by
    simp only [List.append_assoc, List.cons_append]
  have hhead : ∀ d ∈ (c :: u ++ after).head?, isSpace d = false := by
    rintro d ⟨⟩
    exact hc
  have hvalue := hv.value? hafter
  rw [hsplit]
  split_ifs with hfits
  · rw [if_pos hfits] at hvalue
    refine read?_append_of_value? hkey hw hw' hhead hnew hvalue hend ?_
    rw [List.length_append]
    omega
  · rw [if_neg hfits] at hvalue
    exact read?_append_eq_none hkey hw hw' hhead hnew hvalue

theorem read?_nil (root : Table) : Document.read? ⟨root, []⟩ [] = some ⟨root, []⟩ := by
  rw [Document.read?]
  simp [skipTrivia]

/-- The last line may end with the text. -/
theorem Entries.exists_line (h : Entries (e :: entries) t) :
    ∃ u after rest, t = u ++ after ∧ Entry e u ∧ Entries entries rest ∧ EndsLine after ∧
      endLine? after = some rest ∧ rest.length ≤ after.length := by
  cases h with
  | last h => exact ⟨t, [], [], (List.append_nil t).symm, h, .nil, nofun, rfl, le_rfl⟩
  | @line _ u b _ rest h hb hes =>
    refine ⟨u, b ++ rest, rest, rfl, h, hes, endsLine_break hb rest, endLine?_break hb rest, ?_⟩
    rw [List.length_append]
    omega

/-- The entries are added one by one, if they all fit. -/
theorem Entries.read? (h : Entries entries t)
    (hdistinct : ((root ++ entries).map Prod.fst).Nodup) :
    Document.read? ⟨root, []⟩ t =
      if ∀ e ∈ entries, e.2.Fits then some ⟨root ++ entries, []⟩ else none := by
  induction entries generalizing root t with
  | nil =>
    cases h
    rw [read?_nil, List.append_nil]
    rfl
  | cons e entries ih =>
    obtain ⟨u, after, rest, rfl, hentry, hentries, hafter, hend, hshorter⟩ := h.exists_line
    have hsplit : root ++ e :: entries = (root ++ [e]) ++ entries := by simp
    have hnew : e.1 ∉ root.map Prod.fst := by
      rw [List.map_append, List.nodup_append'] at hdistinct
      intro hroot
      exact hdistinct.2.2 hroot (by simp)
    rw [hsplit] at hdistinct ⊢
    rw [hentry.read? hnew hafter hend hshorter, ih hentries hdistinct]
    by_cases hfits : e.2.Fits
    · rw [if_pos hfits]
      simp only [List.forall_mem_cons, hfits, true_and]
    · rw [if_neg hfits, if_neg fun hall => hfits (hall e List.mem_cons_self)]

theorem parse?_eq_read? (h : ∀ c ∈ t.head?, c ≠ byteOrderMark) :
    parse? t = (Document.read? ⟨[], []⟩ t).map Document.root := by
  cases t with
  | nil => rfl
  | cons c t => rw [parse?, if_neg (h c rfl), Document.empty]

/-- No mark stands in front of a key. -/
theorem Entries.head (h : Entries entries t) : ∀ c ∈ t.head?, c ≠ byteOrderMark := by
  cases entries with
  | nil =>
    cases h
    exact nofun
  | cons e entries =>
    obtain ⟨u, after, rest, rfl, hentry, -⟩ := h.exists_line
    obtain ⟨hkey, -⟩ := hentry
    obtain ⟨d, k, rfl, hd⟩ := hkey.head
    rintro c ⟨⟩ rfl
    simp at hd

theorem Entries.parse? (h : Entries entries t) (hdistinct : (entries.map Prod.fst).Nodup) :
    parse? t = if ∀ e ∈ entries, e.2.Fits then some entries else none := by
  have hread : Document.read? ⟨[], []⟩ t = _ := h.read? hdistinct
  rw [parse?_eq_read? h.head, hread]
  split_ifs
  · rfl
  · rfl

end KeypadCalculator.Toml
