import Mathlib.Data.List.TakeWhile
import KeypadCalculator.Proofs.Expression.Glyphs
import KeypadCalculator.Proofs.Typing.Guards

/-! When a text typed with glyphs means the same as the text typed with plain operators. -/

namespace KeypadCalculator

open Buffer

variable {b b₁ b₂ x : Buffer} {c : Char} {t : Text} {p : Nat}

/-- Operators and parentheses end numbers, and here glyphs are operators too. -/
def endsOperand (c : Char) : Bool := endsNumber (plainChar c)

/-- The buffer with plain operators in place of glyphs. -/
def Buffer.plain (b : Buffer) : Buffer := ⟨b.newestFirst.map plainChar⟩

theorem text_plain (b : Buffer) : b.plain.text = withPlainOperators b.text := by
  rw [withPlainOperators_eq_map, Buffer.text, Buffer.text, Buffer.plain, List.map_reverse]

theorem push_plain (b : Buffer) (c : Char) : (b.push c).plain = b.plain.push (plainChar c) := rfl

theorem segment_plain (b : Buffer) : b.plain.segment = (b.segmentBy endsOperand).map plainChar := by
  rw [Buffer.segment, Buffer.plain, List.takeWhile_map]
  rfl

/-- Typing plain operators is typing the glyphs with a guard that knows them. -/
theorem append_plain (b : Buffer) (c : Char) :
    b.plain.append (plainChar c) = (b.appendBy endsOperand c).plain := by
  have hzero : b.plain.newestFirst = ['0'] ↔ b.newestFirst = ['0'] := by
    simp [Buffer.plain, List.map_eq_singleton_iff,
      plainChar_eq_iff (c := '0') (by simp) (by decide)]
  have hpoint : '.' ∈ b.plain.segment ↔ '.' ∈ b.segmentBy endsOperand := by
    rw [segment_plain, mem_map_plainChar (by simp) (by decide)]
  have hnil : b.plain.segment = [] ↔ b.segmentBy endsOperand = [] := by
    rw [segment_plain, List.map_eq_nil_iff]
  simp only [append, appendBy, hzero, hpoint, hnil,
    plainChar_eq_iff (c := '0') (by simp) (by decide),
    plainChar_eq_iff (c := '.') (by simp) (by decide), apply_ite Buffer.plain, push_plain]
  rfl

/-- So is typing a whole text of them. -/
theorem typeText_plain (t : Text) (b : Buffer) :
    (withPlainOperators t).foldl append b.plain = (t.foldl (appendBy endsOperand) b).plain := by
  rw [withPlainOperators_eq_map, List.foldl_map]
  induction t generalizing b with
  | nil => rfl
  | cons c t ih => rw [List.foldl_cons, List.foldl_cons, append_plain, ih]

/-- Whether a point behind this text is read differently when glyphs are operators: the operator
that ends the last number is a glyph, no point follows it, and it is directly before the point or
has a point before it since the last plain operator or parenthesis. -/
def MisreadsPoint (t : Text) : Prop :=
  ∃ before g number, t = before ++ g :: number ∧ IsGlyph g ∧
    (∀ c ∈ number, endsOperand c = false ∧ c ≠ '.') ∧
    (number = [] ∨ '.' ∈ (ofText before).segmentBy endsNumber)

/-- Whether some point of a text is read differently when glyphs are operators. -/
def Misread (t : Text) : Prop :=
  ∃ before after, t = before ++ '.' :: after ∧ MisreadsPoint before

theorem not_endsNumber_of_isGlyph (h : IsGlyph c) : endsNumber c = false := by
  simpa using h.of_all (q := fun d => !endsNumber d) (by decide)

theorem endsOperand_eq_true_iff : endsOperand c = true ↔ endsNumber c = true ∨ IsGlyph c := by
  by_cases hg : IsGlyph c
  · have ho : endsOperand c = true := hg.of_all (by decide)
    simp [ho, hg]
  · simp [endsOperand, plainChar_of_not_glyph hg, hg]

theorem endsOperand_of_endsNumber (h : endsNumber c = true) : endsOperand c = true :=
  endsOperand_eq_true_iff.mpr (Or.inl h)

/-- A guard that does not know glyphs reads on behind the first one. -/
theorem takeWhile_endsNumber (s : Text) :
    s.takeWhile (fun c => !endsNumber c) = s.takeWhile (fun c => !endsOperand c) ∨
      ∃ g rest, IsGlyph g ∧ s = s.takeWhile (fun c => !endsOperand c) ++ g :: rest ∧
        s.takeWhile (fun c => !endsNumber c) =
          s.takeWhile (fun c => !endsOperand c) ++
            g :: rest.takeWhile (fun c => !endsNumber c) := by
  induction s with
  | nil => exact Or.inl rfl
  | cons c s ih =>
    cases hn : endsNumber c with
    | true => exact Or.inl (by simp [hn, endsOperand_of_endsNumber hn])
    | false =>
      cases ho : endsOperand c with
      | true =>
        have hg : IsGlyph c := by simpa [hn] using endsOperand_eq_true_iff.mp ho
        exact Or.inr ⟨c, s, hg, by simp [ho], by simp [hn, ho]⟩
      | false =>
        rcases ih with ih | ⟨g, rest, hg, hs, ih⟩
        · exact Or.inl (by simp [hn, ho, ih])
        · exact Or.inr ⟨g, rest, hg, by simpa [ho] using hs, by simp [hn, ho, ih]⟩

theorem misreadsPoint_iff (t : Text) : MisreadsPoint t ↔
    '.' ∉ (ofText t).segmentBy endsOperand ∧
      ('.' ∈ (ofText t).segmentBy endsNumber ∨
        ((ofText t).segmentBy endsOperand = [] ∧ (ofText t).segmentBy endsNumber ≠ [])) := by
  constructor
  · rintro ⟨before, g, number, rfl, hg, hnumber, hwhere⟩
    have ho : endsOperand g = true := endsOperand_eq_true_iff.mpr (Or.inr hg)
    have hall : ∀ c ∈ number, endsNumber c = false := by
      intro c hc
      rw [← Bool.not_eq_true]
      intro hend
      exact Bool.eq_false_iff.mp (hnumber c hc).1 (endsOperand_of_endsNumber hend)
    have hpush : (ofText (before ++ g :: number)).newestFirst =
        number.reverse ++ ((ofText before).push g).newestFirst := by simp [ofText, push]
    rw [segmentBy_append hpush fun c hc => (hnumber c hc).1, segmentBy_append hpush hall,
      segmentBy_push, segmentBy_push, ho, not_endsNumber_of_isGlyph hg]
    refine ⟨by simpa using fun hc => (hnumber _ hc).2 rfl, ?_⟩
    rcases hwhere with rfl | hwhere
    · exact Or.inr ⟨rfl, by simp⟩
    · exact Or.inl (by simp [hwhere])
  · rintro ⟨hpoint, hwhere⟩
    rcases takeWhile_endsNumber t.reverse with heq | ⟨g, rest, hg, hs, heq⟩
    · have heq : (ofText t).segmentBy endsNumber = (ofText t).segmentBy endsOperand := heq
      rw [heq] at hwhere
      tauto
    · refine ⟨rest.reverse, g, ((ofText t).segmentBy endsOperand).reverse, ?_, hg, ?_, ?_⟩
      · have := congrArg List.reverse hs
        simpa [segmentBy, ofText] using this
      · intro c hc
        rw [List.mem_reverse] at hc
        refine ⟨?_, fun he => hpoint (he ▸ hc)⟩
        simpa using List.mem_takeWhile_imp hc
      · have heq : (ofText t).segmentBy endsNumber =
            (ofText t).segmentBy endsOperand ++
              g :: (ofText rest.reverse).segmentBy endsNumber := by
          simpa [segmentBy, ofText] using heq
        rcases hwhere with hwhere | ⟨hwhere, -⟩
        · rw [heq, List.mem_append, List.mem_cons] at hwhere
          rcases hwhere with hwhere | hwhere | hwhere
          · exact absurd hwhere hpoint
          · exact absurd (hwhere ▸ hg) (by decide)
          · exact Or.inr hwhere
        · exact Or.inl (by simp [hwhere])

theorem mem_segmentBy_endsNumber (h : c ∈ b.segmentBy endsOperand) :
    c ∈ b.segmentBy endsNumber := by
  rcases takeWhile_endsNumber b.newestFirst with heq | ⟨g, rest, -, -, heq⟩ <;>
    rw [segmentBy, heq]
  · exact h
  · exact List.mem_append_left _ h

theorem segmentBy_endsOperand_nil (h : b.segmentBy endsNumber = []) :
    b.segmentBy endsOperand = [] := by
  apply List.eq_nil_iff_forall_not_mem.mpr
  intro c hc
  simpa [h] using mem_segmentBy_endsNumber hc

theorem pointGrowth_le (b : Buffer) : b.pointGrowth endsNumber ≤ b.pointGrowth endsOperand := by
  have hmem := @mem_segmentBy_endsNumber b '.'
  have hnil := @segmentBy_endsOperand_nil b
  simp only [pointGrowth]
  split_ifs <;> simp_all

theorem pointGrowth_lt_iff (t : Text) :
    (ofText t).pointGrowth endsNumber < (ofText t).pointGrowth endsOperand ↔ MisreadsPoint t := by
  have hmem := @mem_segmentBy_endsNumber (ofText t) '.'
  have hnil := @segmentBy_endsOperand_nil (ofText t)
  rw [misreadsPoint_iff]
  simp only [pointGrowth]
  split_ifs <;> simp_all

/-- What was typed behind the glyph-blind guard has fallen behind, for good. -/
structure FallenBehind (x b₁ b₂ : Buffer) : Prop where
  blind : SameGuard endsNumber b₁ x
  sighted : SameGuard endsOperand b₂ x
  nonempty : 0 < b₁.newestFirst.length
  shorter : b₁.newestFirst.length < b₂.newestFirst.length

theorem sameGuard_endsNumber (h : SameGuard endsNumber b x) (c : Char) :
    SameGuard endsNumber (b.append c) (x.push c) :=
  sameGuard_step (by decide) (by decide) h c

theorem sameGuard_endsOperand (h : SameGuard endsOperand b x) (c : Char) :
    SameGuard endsOperand (b.appendBy endsOperand c) (x.push c) :=
  sameGuard_step (by decide) (by decide) h c

theorem fallenBehind_step (h : FallenBehind x b₁ b₂) (c : Char) :
    FallenBehind (x.push c) (b₁.append c) (b₂.appendBy endsOperand c) := by
  obtain ⟨hb, hs, hpos, hlt⟩ := h
  suffices hlen : b₁.newestFirst.length ≤ (b₁.append c).newestFirst.length ∧
      (b₁.append c).newestFirst.length < (b₂.appendBy endsOperand c).newestFirst.length from
    ⟨sameGuard_endsNumber hb c, sameGuard_endsOperand hs c, by omega, hlen.2⟩
  rw [← appendBy_endsNumber]
  by_cases hc : c = '.'
  · subst hc
    have hgrow := pointGrowth_le x
    rw [length_appendBy_point, length_appendBy_point, hb.pointGrowth_eq, hs.pointGrowth_eq]
    omega
  · have hlong : b₂.newestFirst ≠ ['0'] := by
      intro he
      simp [he] at hlt
      simp [hlt] at hpos
    rw [appendBy_push (fun _ => hlong) hc]
    by_cases hz : c = '0' ∧ b₁.newestFirst = ['0']
    · rw [appendBy, if_pos hz, push, List.length_cons]
      omega
    · rw [appendBy_push (by tauto) hc, push, push, List.length_cons, List.length_cons]
      omega

theorem fallenBehind_trace (h : FallenBehind x b₁ b₂) (t : Text) :
    (t.foldl append b₁).newestFirst.length <
      (t.foldl (appendBy endsOperand) b₂).newestFirst.length := by
  induction t generalizing x b₁ b₂ with
  | nil => exact h.shorter
  | cons c t ih => exact ih (fallenBehind_step h c)

theorem fallenBehind_of_misreads (hn : SameGuard endsNumber b x) (ho : SameGuard endsOperand b x)
    (hm : MisreadsPoint x.text) :
    FallenBehind (x.push '.') (b.append '.') (b.appendBy endsOperand '.') := by
  have hlt := (pointGrowth_lt_iff x.text).mpr hm
  rw [ofText_text, ← hn.pointGrowth_eq, ← ho.pointGrowth_eq] at hlt
  refine ⟨sameGuard_endsNumber hn '.', sameGuard_endsOperand ho '.', ?_, ?_⟩
  · have hne : (b.append '.').segmentBy endsNumber ≠ [] := by
      rw [ne_eq, (sameGuard_endsNumber hn '.').2, segmentBy_push, if_neg (by decide)]
      exact List.cons_ne_nil _ _
    apply List.length_pos_iff.mpr
    intro hnil
    exact hne (by rw [segmentBy, hnil, List.takeWhile_nil])
  · rw [← appendBy_endsNumber, length_appendBy_point, length_appendBy_point]
    omega

/-- As long as no point is misread, both guards do the same. -/
theorem append_eq_of_not_misreads (hn : SameGuard endsNumber b x) (ho : SameGuard endsOperand b x)
    (hc : c = '.' → ¬ MisreadsPoint x.text) : b.append c = b.appendBy endsOperand c := by
  by_cases hp : c = '.'
  · subst hp
    have hm := hc rfl
    rw [misreadsPoint_iff, ofText_text, ← ho.1, ← hn.1, ← ho.2, ne_eq, ← hn.2] at hm
    have hmem := @mem_segmentBy_endsNumber b '.'
    have hnil := @segmentBy_endsOperand_nil b
    rw [← appendBy_endsNumber]
    simp only [appendBy]
    split_ifs <;> simp_all
  · simp only [append, appendBy, hp, if_false]

/-- Whether a point of `t` is misread behind the text `s`. -/
def MisreadBehind (s t : Text) : Prop :=
  ∃ before after, t = before ++ '.' :: after ∧ MisreadsPoint (s ++ before)

theorem misreadBehind_cons (s t : Text) : MisreadBehind s (c :: t) ↔
    (c = '.' ∧ MisreadsPoint s) ∨ MisreadBehind (s ++ [c]) t := by
  constructor
  · rintro ⟨before, after, heq, hm⟩
    cases before with
    | nil =>
      cases heq
      exact Or.inl ⟨rfl, by simpa using hm⟩
    | cons d before =>
      cases heq
      exact Or.inr ⟨before, after, rfl, by simpa using hm⟩
  · rintro (⟨rfl, hm⟩ | ⟨before, after, rfl, hm⟩)
    · exact ⟨[], t, rfl, by simpa using hm⟩
    · exact ⟨c :: before, after, rfl, by simpa using hm⟩

theorem foldl_append_cases (hn : SameGuard endsNumber b x) (ho : SameGuard endsOperand b x)
    (t : Text) :
    (¬ MisreadBehind x.text t ∧ t.foldl append b = t.foldl (appendBy endsOperand) b) ∨
      (MisreadBehind x.text t ∧ (t.foldl append b).newestFirst.length <
        (t.foldl (appendBy endsOperand) b).newestFirst.length) := by
  induction t generalizing b x with
  | nil => simp [MisreadBehind]
  | cons c t ih =>
    rw [misreadBehind_cons, List.foldl_cons, List.foldl_cons]
    by_cases hm : c = '.' ∧ MisreadsPoint x.text
    · obtain ⟨rfl, hm⟩ := hm
      exact Or.inr ⟨Or.inl ⟨rfl, hm⟩, fallenBehind_trace (fallenBehind_of_misreads hn ho hm) t⟩
    · have hstep := append_eq_of_not_misreads hn ho (fun hc h => hm ⟨hc, h⟩)
      have hn' := sameGuard_endsNumber hn c
      rw [hstep] at hn' ⊢
      simpa [hm] using ih hn' (sameGuard_endsOperand ho c)

theorem typed_withPlainOperators (t : Text) :
    typed (withPlainOperators t) = (t.foldl (appendBy endsOperand) empty).plain :=
  typeText_plain t empty

/-- Either no point is misread and the same arithmetic is typed, or less is typed than was meant. -/
theorem typed_cases (t : Text) :
    (¬ Misread t ∧ withPlainOperators (typed t).text = (typed (withPlainOperators t)).text) ∨
      (Misread t ∧ (typed t).text.length < (typed (withPlainOperators t)).text.length) := by
  have hsame : SameGuard endsNumber empty empty ∧ SameGuard endsOperand empty empty := by
    simp [SameGuard]
  have hmis : MisreadBehind (empty : Buffer).text t ↔ Misread t := by
    simp [MisreadBehind, Misread, show (empty : Buffer).text = [] from rfl]
  rw [← hmis, ← text_plain, typed_withPlainOperators, text_plain, text_plain,
    withPlainOperators_eq_map (Buffer.text (t.foldl _ _)), List.length_map, typed]
  rcases foldl_append_cases hsame.1 hsame.2 t with ⟨hm, heq⟩ | ⟨hm, hlt⟩
  · exact Or.inl ⟨hm, by rw [heq, withPlainOperators_eq_map]⟩
  · exact Or.inr ⟨hm, by simpa [Buffer.text] using hlt⟩

/-- Typing glyphs and typing plain operators leave the same arithmetic exactly when no point of the
text is misread. -/
theorem plain_typed_eq_iff (t : Text) :
    withPlainOperators (typed t).text = (typed (withPlainOperators t)).text ↔ ¬ Misread t := by
  rcases typed_cases t with ⟨hm, heq⟩ | ⟨hm, hlt⟩
  · exact iff_of_true heq hm
  · apply iff_of_false _ (not_not.mpr hm)
    intro he
    rw [← he, withPlainOperators_eq_map, List.length_map] at hlt
    exact absurd hlt (Nat.lt_irrefl _)

theorem length_typed_eq_iff (t : Text) :
    (typed t).text.length = (typed (withPlainOperators t)).text.length ↔ ¬ Misread t := by
  rcases typed_cases t with ⟨hm, heq⟩ | ⟨hm, hlt⟩
  · apply iff_of_true _ hm
    rw [← heq, withPlainOperators_eq_map, List.length_map]
  · exact iff_of_false (Nat.ne_of_lt hlt) (not_not.mpr hm)

end KeypadCalculator
