import Mathlib.Tactic.IntervalCases
import KeypadCalculator.Proofs.Toml.Integers

/-!
A string of any kind is read as what it says.
-/

namespace KeypadCalculator.Toml

variable {c q : Char} {n : ℕ} {b e t u after rest : Text}

theorem codePoint?_append {ds : List ℕ} (hlength : t.length = n)
    (hdigits : List.Forall₂ (IsDigit 16) ds t) (hnumber : number 16 ds = c.toNat) (rest : Text) :
    codePoint? n (t ++ rest) = some (c, rest) := by
  have hvalue : baseValue 16 t = c.toNat := by
    rw [baseValue_eq_number hdigits le_rfl, hnumber]
  have hall : t.all (isBaseDigit 16) = true := by
    clear hlength hnumber hvalue
    induction hdigits with
    | nil => rfl
    | cons hd h ih => rw [List.all_cons, hd.isBaseDigit le_rfl, ih, Bool.and_self]
  subst hlength
  have hvalid : c.toNat.isValidChar := c.valid
  rw [codePoint?, List.take_left, List.drop_left, hvalue, Char.ofNat_toNat]
  exact if_pos ⟨rfl, hall, hvalid⟩

/-- The escape is read, and its backslash is not taken for one that joins two lines. -/
theorem Escaped.read (h : Escaped c e) (rest : Text) :
    escape? (e ++ rest) = some (c, rest) ∧ joinedLine? (e ++ rest) = none := by
  cases h with
  | named hmark =>
    simp only [List.mem_cons, Prod.mk.injEq, List.not_mem_nil, or_false] at hmark
    rcases hmark with ⟨rfl, rfl⟩ | ⟨rfl, rfl⟩ | ⟨rfl, rfl⟩ | ⟨rfl, rfl⟩ | ⟨rfl, rfl⟩ | ⟨rfl, rfl⟩ |
      ⟨rfl, rfl⟩ | ⟨rfl, rfl⟩ <;> exact ⟨rfl, rfl⟩
  | numbered hmark hlength hdigits hnumber =>
    have hcode := codePoint?_append hlength hdigits hnumber rest
    simp only [List.mem_cons, Prod.mk.injEq, List.not_mem_nil, or_false] at hmark
    rcases hmark with ⟨rfl, rfl⟩ | ⟨rfl, rfl⟩ | ⟨rfl, rfl⟩ <;> exact ⟨hcode, rfl⟩

theorem ne_newline_of_isPlain (h : isPlain c = true) : c ≠ '\n' ∧ c ≠ '\r' := by
  constructor <;> rintro rfl <;> cases h

/-- Neither a quote nor a line break is written at the start. -/
theorem Letter.head (h : Letter c u) : ∃ d v, u = d :: v ∧ d ≠ '"' ∧ d ≠ '\n' ∧ d ≠ '\r' := by
  cases h with
  | plain hplain hquote hslash => exact ⟨c, [], rfl, hquote, ne_newline_of_isPlain hplain⟩
  | escaped h => exact ⟨'\\', _, rfl, by decide⟩

theorem Letter.basic? (h : Letter c u) (read rest : Text) :
    basic? read (u ++ rest) = Toml.basic? (c :: read) rest := by
  cases h with
  | plain hplain hquote hslash =>
    rw [List.singleton_append, Toml.basic?, if_pos hplain] <;> assumption
  | escaped h =>
    have hread := (h.read rest).1
    rw [List.cons_append, Toml.basic?]
    split <;> simp_all

theorem Letters.basic? (h : Letters t u) (read rest : Text) :
    basic? read (u ++ '"' :: rest) = some (read.reverse ++ t, rest) := by
  induction h generalizing read with
  | nil => rw [List.nil_append, List.append_nil, Toml.basic?]
  | cons hletter h ih =>
    rw [List.append_assoc, hletter.basic?, ih, List.reverse_cons, List.append_assoc,
      List.singleton_append]

theorem literal?_append (h : ∀ c ∈ t, isPlain c = true ∧ c ≠ '\'') (read rest : Text) :
    literal? read (t ++ '\'' :: rest) = some (read.reverse ++ t, rest) := by
  induction t generalizing read with
  | nil => simp [literal?]
  | cons c t ih =>
    obtain ⟨⟨hplain, hquote⟩, h⟩ := List.forall_mem_cons.mp h
    rw [List.cons_append, literal?, if_pos hplain, ih h, List.reverse_cons, List.append_assoc,
      List.singleton_append]
    exact hquote

section Fences

variable {reader : Text → Text → Option (Text × Text)} {Part : Text → Text → Text → Prop}

/-- What the readers of both kinds do with quotes. -/
structure Fenced (q : Char) (reader : Text → Text → Option (Text × Text)) : Prop where
  close (read t : Text) : reader read (q :: q :: q :: t) = some (closing q read t)
  take (read t : Text) (h : ∀ u, t ≠ q :: q :: u) :
    reader read (q :: t) = reader (q :: read) t

/-- Fewer than three quotes in front of another character are content. -/
theorem Fenced.pending (h : Fenced q reader) (hn : n ≤ 2) (hc : c ≠ q) (read : Text) :
    reader read (List.replicate n q ++ c :: rest) =
      reader (List.replicate n q ++ read) (c :: rest) := by
  interval_cases n
  · rfl
  · simp [h.take, hc]
  · simp [h.take, hc]

/-- The last three quotes of up to five close the string. -/
theorem Fenced.closed (h : Fenced q reader) (hn : n ≤ 2) (hrest : rest.head? ≠ some q)
    (read : Text) :
    reader read (List.replicate n q ++ [q, q, q] ++ rest) =
      some (read.reverse ++ List.replicate n q, rest) := by
  have hclosing : closing q read (List.replicate n q ++ rest) =
      (read.reverse ++ List.replicate n q, rest) := by
    interval_cases n <;> cases rest <;> simp_all [closing]
  have hclose := h.close read (List.replicate n q ++ rest)
  rw [hclosing] at hclose
  interval_cases n <;> simpa [List.replicate_succ] using hclose

/-- A reader that reads each part as what it says. -/
structure ReadsParts (q : Char) (Part : Text → Text → Text → Prop)
    (reader : Text → Text → Option (Text × Text)) : Prop extends Fenced q reader where
  head {s w u : Text} (h : Part s w u) : ∃ d v, w = d :: v ∧ d ≠ q
  part {s w u after : Text} (h : Part s w u) (hafter : after.head? = some q) (read : Text) :
    reader read (w ++ (u ++ after)) = reader (s.reverse ++ read) (u ++ after)

theorem Parts.read (h : Parts q Part n t u) (hreader : ReadsParts q Part reader) (hn : n ≤ 2)
    (hrest : rest.head? ≠ some q) (read : Text) :
    reader read (List.replicate n q ++ u ++ [q, q, q] ++ rest) =
      some (read.reverse ++ List.replicate n q ++ t, rest) := by
  -- A quote is content only if no closing row comes of it, so the induction carries the unread ones.
  induction h generalizing read with
  | nil => simpa using hreader.closed hn hrest read
  | quote hlt h ih => simpa [List.replicate_succ'] using ih hlt read
  | @part n s w t u hpart h ih =>
    -- The row ends here without a closing one, so what there is of it is content.
    obtain ⟨d, v, rfl, hd⟩ := hreader.head hpart
    let after := [q, q, q] ++ rest
    calc reader read (List.replicate n q ++ (d :: v ++ u) ++ [q, q, q] ++ rest)
      _ = reader read (List.replicate n q ++ d :: (v ++ (u ++ after))) := by simp [after]
      _ = reader (List.replicate n q ++ read) (d :: v ++ (u ++ after)) :=
        hreader.pending hn hd read
      _ = reader (s.reverse ++ (List.replicate n q ++ read)) (u ++ after) :=
        hreader.part hpart rfl _
      _ = some (read.reverse ++ List.replicate n q ++ (s ++ t), rest) := by
        simpa [after] using ih (Nat.zero_le 2) (s.reverse ++ (List.replicate n q ++ read))

theorem skipNewline?_break (h : Break b) (t : Text) : skipNewline? (b ++ t) = some t := by
  cases h <;> rfl

theorem skipNewline?_eq_none (h : ∀ c ∈ t.head?, c ≠ '\n' ∧ c ≠ '\r') : skipNewline? t = none := by
  unfold skipNewline?
  split <;> simp_all

/-- What stands between the fences is read, without a line break in front. -/
theorem Fence.read (h : Fence q Part t u) (hreader : ReadsParts q Part reader) (hq : q ≠ '\n')
    (hq' : q ≠ '\r') (hrest : rest.head? ≠ some q) :
    ∃ v, u ++ rest = q :: q :: q :: v ∧ reader [] (skipFirstNewline v) = some (t, rest) := by
  cases h with
  | @«open» t u hhead hparts =>
    refine ⟨u ++ [q, q, q] ++ rest, by simp, ?_⟩
    have hskip : skipNewline? (u ++ [q, q, q] ++ rest) = none := by
      refine skipNewline?_eq_none fun c hc => ?_
      cases u with
      | nil =>
        obtain rfl := Option.some.inj hc
        exact ⟨hq, hq'⟩
      | cons d u => exact hhead c hc
    rw [skipFirstNewline, hskip, Option.getD_none]
    exact hparts.read hreader (Nat.zero_le 2) hrest []
  | @«break» b t u hbreak hparts =>
    refine ⟨b ++ (u ++ [q, q, q] ++ rest), by simp, ?_⟩
    rw [skipFirstNewline, skipNewline?_break hbreak, Option.getD_some]
    exact hparts.read hreader (Nat.zero_le 2) hrest []

end Fences

theorem Gap.skipLines (h : Gap t) (hafter : ∀ c ∈ after.head?, c ∉ [' ', '\t', '\n', '\r']) :
    skipLines (t ++ after) = after := by
  induction h with
  | nil =>
    rw [List.nil_append]
    unfold Toml.skipLines
    split <;> simp_all
  | space hc h ih =>
    simp only [isSpace, Bool.or_eq_true, beq_iff_eq] at hc
    rcases hc with rfl | rfl
    · rw [List.cons_append, Toml.skipLines, ih]
    · rw [List.cons_append, Toml.skipLines, ih]
  | «break» hb h ih =>
    cases hb with
    | lineFeed => rw [List.append_assoc, List.singleton_append, Toml.skipLines, ih]
    | carriageReturn =>
      rw [List.append_assoc, List.cons_append, List.singleton_append, Toml.skipLines, ih]

theorem skipSpaces_append (h : ∀ c ∈ t, isSpace c = true)
    (hafter : ∀ c ∈ after.head?, isSpace c = false) : skipSpaces (t ++ after) = after :=
  (takeWhile_dropWhile_append h hafter).2

theorem joinedLine?_append {w gap : Text} (hw : ∀ c ∈ w, isSpace c = true) (hb : Break b)
    (hgap : Gap gap) (hafter : ∀ c ∈ after.head?, c ∉ [' ', '\t', '\n', '\r']) :
    joinedLine? (w ++ (b ++ gap) ++ after) = some after := by
  have hspaces : skipSpaces (w ++ (b ++ (gap ++ after))) = b ++ (gap ++ after) := by
    refine skipSpaces_append hw ?_
    cases hb <;> rintro c ⟨⟩ <;> rfl
  rw [List.append_assoc, List.append_assoc, joinedLine?, hspaces, skipNewline?_break hb,
    Option.map_some, hgap.skipLines hafter]

theorem multiBasic?_cons (h : isPlain c = true ∨ c = '\n') (hquote : c ≠ '"') (hslash : c ≠ '\\')
    (read t : Text) : multiBasic? read (c :: t) = multiBasic? (c :: read) t := by
  rw [multiBasic?]
  · simp [h]
  · exact fun _ hc _ => hquote hc
  · exact hslash
  · rintro _ rfl -
    simp [isPlain] at h

theorem Letter.multiBasic? (h : Letter c u) (read rest : Text) :
    multiBasic? read (u ++ rest) = Toml.multiBasic? (c :: read) rest := by
  cases h with
  | plain hplain hquote hslash => exact multiBasic?_cons (.inl hplain) hquote hslash read rest
  | escaped h =>
    obtain ⟨hread, hjoin⟩ := h.read rest
    rw [List.cons_append, Toml.multiBasic?]
    split
    · simp_all
    · split <;> simp_all

theorem readsParts_multiBasic? : ReadsParts '"' BasicPart multiBasic? where
  close read t := by simp [multiBasic?]
  take read t h := by
    rw [multiBasic?] <;> simp_all [isPlain]
  head h := by
    cases h with
    | letter h =>
      obtain ⟨d, v, rfl, hd, -⟩ := h.head
      exact ⟨d, v, rfl, hd⟩
    | «break» h => cases h <;> exact ⟨_, _, rfl, by decide⟩
    | joined hw hb hgap hafter => exact ⟨'\\', _, rfl, by decide⟩
  part {s w u after} h hafter read := by
    cases h with
    | letter h => exact h.multiBasic? read _
    | «break» h =>
      cases h with
      | lineFeed => exact multiBasic?_cons (.inr rfl) (by decide) (by decide) read _
      | carriageReturn =>
        rw [List.cons_append, List.singleton_append, multiBasic?]
        rfl
    | joined hw hb hgap hhead =>
      have hvisible : ∀ c ∈ (u ++ after).head?, c ∉ [' ', '\t', '\n', '\r'] := by
        cases u with
        | nil =>
          intro c hc
          obtain rfl := Option.some.inj (hafter.symm.trans hc)
          decide
        | cons d u => exact hhead
      have hjoin := joinedLine?_append hw hb hgap hvisible
      rw [List.cons_append, multiBasic?]
      split <;> simp_all

theorem multiLiteral?_cons (h : isPlain c = true ∨ c = '\n') (hquote : c ≠ '\'') (read t : Text) :
    multiLiteral? read (c :: t) = multiLiteral? (c :: read) t := by
  rw [multiLiteral?]
  · simp [h]
  · exact fun _ hc _ => hquote hc
  · rintro _ rfl -
    simp [isPlain] at h

theorem readsParts_multiLiteral? : ReadsParts '\'' LiteralPart multiLiteral? where
  close read t := by simp [multiLiteral?]
  take read t h := by
    rw [multiLiteral?] <;> simp_all [isPlain]
  head h := by
    cases h with
    | plain hplain hquote => exact ⟨_, [], rfl, hquote⟩
    | «break» h => cases h <;> exact ⟨_, _, rfl, by decide⟩
  part h _ read := by
    cases h with
    | plain hplain hquote => exact multiLiteral?_cons (.inl hplain) hquote read _
    | «break» h =>
      cases h with
      | lineFeed => exact multiLiteral?_cons (.inr rfl) (by decide) read _
      | carriageReturn => rfl

/-- A string starts with a quote. -/
theorem Quoted.head (h : Quoted t u) : ∃ q v, u = q :: v ∧ (q = '"' ∨ q = '\'') := by
  cases h with
  | basic h => exact ⟨_, _, rfl, .inl rfl⟩
  | literal h => exact ⟨_, _, rfl, .inr rfl⟩
  | basicLines h => cases h <;> exact ⟨_, _, rfl, .inl rfl⟩
  | literalLines h => cases h <;> exact ⟨_, _, rfl, .inr rfl⟩

/-- A string is read up to text that has no quotes in front. -/
theorem Quoted.quoted? (h : Quoted t u) (hbasic : rest.head? ≠ some '"')
    (hliteral : rest.head? ≠ some '\'') : quoted? (u ++ rest) = some (t, rest) := by
  cases h with
  | basic h =>
    have hread := h.basic? [] rest
    rw [List.cons_append, List.append_assoc, List.singleton_append]
    rw [Toml.quoted?, hread]
    · rfl
    -- Content has a backslash in front of its quotes, so three quotes do not stand here.
    · rintro v heq
      cases h with
      | nil => grind
      | cons hletter h =>
        obtain ⟨d, w, rfl, hd, -⟩ := hletter.head
        exact hd (List.cons.inj heq).1
  | literal h =>
    have hread := literal?_append h [] rest
    rw [List.cons_append, List.append_assoc, List.singleton_append]
    rw [Toml.quoted?, hread]
    · rfl
    · rintro v heq
      cases t with
      | nil => grind
      | cons d t => exact (h d List.mem_cons_self).2 (List.cons.inj heq).1
  | basicLines h =>
    obtain ⟨v, hv, hread⟩ :=
      h.read readsParts_multiBasic? (by decide) (by decide) hbasic
    rw [hv, Toml.quoted?, hread]
  | literalLines h =>
    obtain ⟨v, hv, hread⟩ :=
      h.read readsParts_multiLiteral? (by decide) (by decide) hliteral
    rw [hv, Toml.quoted?, hread]

end KeypadCalculator.Toml
