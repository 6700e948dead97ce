import KeypadCalculator.Proofs.Binary64.ReadBack
import KeypadCalculator.Proofs.Expression.Screening

/-! A text is cut into lexemes from left to right, every number as long as it can be. Scanning reads
the lexemes one by one, and stops at the first that writes no token. -/

namespace KeypadCalculator

open Binary64 Token

/-- Digits, with at most one point among them. -/
def IsRun (l : Text) : Prop := (∀ c ∈ l, startsNumber c = true) ∧ l.count '.' ≤ 1

/-- The run `l` in front of `t` could not be longer. -/
structure LongestRun (l t : Text) : Prop where
  nonempty : l ≠ []
  isRun : IsRun l
  longest : ∀ k, k <+: l ++ t → IsRun k → k.length ≤ l.length

/-- A piece of a text, and the place where it starts. -/
structure Lexeme where
  text : Text
  position : ℕ

/-- The lexemes of a text that starts at a place: longest runs, and whatever other characters there
are but blanks. -/
inductive Cut : ℕ → Text → List Lexeme → Prop
  | nil {p} : Cut p [] []
  | blank {p c t ls} : isBlank c = true → Cut (p + 1) t ls → Cut p (c :: t) ls
  | single {p c t ls} : isBlank c = false → startsNumber c = false → Cut (p + 1) t ls →
      Cut p (c :: t) (⟨[c], p⟩ :: ls)
  | run {p l t ls} : LongestRun l t → Cut (p + l.length) t ls → Cut p (l ++ t) (⟨l, p⟩ :: ls)

/-- The token that a lexeme writes. A number is the one nearest to what its digits say. -/
inductive Lexeme.Writes : Lexeme → Token → Prop
  | symbol {c p s} : symbolOf? c = some s → Writes ⟨[c], p⟩ ⟨s, p⟩
  | number {l p x} : LiteralFor l x → Writes ⟨l, p⟩ ⟨.number (.ofRank false (rankOf x)), p⟩

/-- What is wrong with a lexeme that writes no token. -/
inductive Lexeme.Fails : Lexeme → SyntaxError → Prop
  | point {p} : Fails ⟨['.'], p⟩ (.invalidNumber ['.'])
  | foreign {c p} : isArithmetic c = false → Fails ⟨[c], p⟩ (.unknownChar c)

/-- What reading lexemes comes to, after the tokens already found (newest first). -/
inductive Reading : List Lexeme → List Token → Except SyntaxError (List Token) → Prop
  | done {found} : Reading [] found (.ok found.reverse)
  | next {l ls token found result} : l.Writes token → Reading ls (token :: found) result →
      Reading (l :: ls) found result
  | stop {l ls found why} : l.Fails why → Reading (l :: ls) found (.error why)

variable {c : Char} {k l t : Text} {p : ℕ} {x : ℚ} {lexeme : Lexeme} {ls : List Lexeme}
  {token : Token} {found tokens : List Token} {why : SyntaxError}

theorem IsRun.of_prefix (h : IsRun k) (hl : l <+: k) : IsRun l :=
  ⟨fun c hc => h.1 c (hl.subset hc), (hl.sublist.count_le '.').trans h.2⟩

/-- Only the next character needs to be looked at. -/
theorem longestRun_of_stop (hne : l ≠ []) (hrun : IsRun l)
    (hstop : ∀ c ∈ t.head?, ¬ IsRun (l ++ [c])) : LongestRun l t := by
  refine ⟨hne, hrun, ?_⟩
  intro k hk hrunk
  by_contra hlonger
  obtain ⟨u, rfl⟩ : l <+: k :=
    List.prefix_of_prefix_length_le (List.prefix_append l t) hk (by omega)
  cases u with
  | nil => simp at hlonger
  | cons c u =>
    obtain ⟨v, hv⟩ := (List.prefix_append_right_inj l).mp hk
    have hhead : c ∈ t.head? := by simp [← hv]
    exact hstop c hhead (hrunk.of_prefix ⟨u, by simp⟩)

theorem count_point_digits (hl : ∀ c ∈ l, c.isDigit = true) : l.count '.' = 0 := by
  apply List.count_eq_zero.mpr
  intro hpoint
  exact absurd (hl '.' hpoint) (by decide)

theorem Literal.longestRun (h : Literal l t) : LongestRun l t := by
  have hmem := startsNumber_of_mem_literal h
  cases h with
  | whole hds hne ht =>
    refine longestRun_of_stop hne ⟨hmem, by simp [count_point_digits hds]⟩ ?_
    intro c hc hrun
    have hstart := hrun.1 c (by simp)
    rw [ht c hc] at hstart
    cases hstart
  | point hds hfs ht =>
    refine longestRun_of_stop (by simp) ⟨hmem, ?_⟩ ?_
    · simp [count_point_digits hds, count_point_digits hfs]
    · intro c hc hrun
      obtain rfl : c = '.' := by simpa [startsNumber, ht c hc] using hrun.1 c (by simp)
      have hcount := hrun.2
      simp only [List.count_append, List.count_cons_self, List.count_nil] at hcount
      omega

/-- The longest run is what the scanner takes for a literal. -/
theorem LongestRun.literal (h : LongestRun l t) : Literal l t := by
  obtain ⟨c, u, rfl⟩ := List.exists_cons_of_ne_nil h.nonempty
  have hstart : startsNumber c = true := h.isRun.1 c (by simp)
  have hliteral := literal_splitNumber (t := u ++ t) hstart
  have hsplit : _ = c :: u ++ t := splitNumber_append (c :: (u ++ t))
  generalize splitNumber (c :: (u ++ t)) = pieces at hliteral hsplit
  have hle := h.longest _ ⟨pieces.2, hsplit⟩ hliteral.longestRun.isRun
  have hge := hliteral.longestRun.longest (c :: u) ⟨t, hsplit.symm⟩ h.isRun
  obtain ⟨hfst, hsnd⟩ := List.append_inj hsplit (Nat.le_antisymm hle hge)
  rwa [hfst, hsnd] at hliteral

theorem exists_cut (p : ℕ) (t : Text) : ∃ ls, Cut p t ls := by
  match t with
  | [] => exact ⟨[], .nil⟩
  | c :: t =>
    by_cases hblank : isBlank c = true
    · obtain ⟨ls, hls⟩ := exists_cut (p + 1) t
      exact ⟨ls, .blank hblank hls⟩
    by_cases hstart : startsNumber c = true
    · obtain ⟨ls, hls⟩ := exists_cut (p + (splitNumber (c :: t)).1.length) (splitNumber (c :: t)).2
      have hcut := Cut.run (literal_splitNumber hstart).longestRun hls
      rw [splitNumber_append] at hcut
      exact ⟨_, hcut⟩
    · obtain ⟨ls, hls⟩ := exists_cut (p + 1) t
      exact ⟨_, .single (eq_false_of_ne_true hblank) (eq_false_of_ne_true hstart) hls⟩
termination_by t.length
decreasing_by
  · simp
  · exact splitNumber_shorter t hstart
  · simp

namespace Cut

/-- The characters of the lexemes, each in its place, are all characters but the blanks. -/
theorem zipIdx_eq (h : Cut p t ls) :
    ls.flatMap (fun l => l.text.zipIdx l.position) =
      (t.zipIdx p).filter fun entry => !isBlank entry.1 := by
  induction h with
  | nil => rfl
  | blank hc _ ih => simp [List.zipIdx_cons, hc, ih]
  | single hc _ _ ih => simp [List.zipIdx_cons, hc, ih]
  | @run p l t ls hl _ ih =>
    have hblank : ∀ entry ∈ l.zipIdx p, (!isBlank entry.1) = true := by
      intro entry hentry
      have hstart := hl.isRun.1 _ (List.fst_mem_of_mem_zipIdx hentry)
      rw [not_isBlank_of_startsNumber hstart, Bool.not_false]
    rw [List.flatMap_cons, ih, List.zipIdx_append, List.filter_append,
      List.filter_eq_self.mpr hblank, Nat.add_comm]

theorem text_eq (h : Cut p t ls) : ls.flatMap Lexeme.text = t.filter fun c => !isBlank c :=
  calc ls.flatMap Lexeme.text
    _ = (ls.flatMap fun l => l.text.zipIdx l.position).map Prod.fst := by simp [List.map_flatMap]
    _ = ((t.zipIdx p).filter fun entry => !isBlank entry.1).map Prod.fst := by rw [h.zipIdx_eq]
    _ = ((t.zipIdx p).map Prod.fst).filter fun c => !isBlank c := by
      rw [List.filter_map, Function.comp_def]
    _ = t.filter fun c => !isBlank c := by rw [List.zipIdx_map_fst]

theorem mem_lexeme_iff (h : Cut p t ls) :
    (∃ l ∈ ls, c ∈ l.text) ↔ c ∈ t ∧ isBlank c = false := by
  rw [← List.mem_flatMap, h.text_eq, List.mem_filter, Bool.not_eq_true']

theorem position_le (h : Cut p t ls) : ∀ l ∈ ls, p ≤ l.position := by
  induction h with
  | nil => simp
  | blank _ _ ih => exact fun l hl => Nat.le_of_succ_le (ih l hl)
  | single _ _ _ ih =>
    intro l hl
    rcases List.mem_cons.mp hl with rfl | hl
    · exact le_rfl
    · exact Nat.le_of_succ_le (ih l hl)
  | run _ _ ih =>
    intro l hl
    rcases List.mem_cons.mp hl with rfl | hl
    · exact le_rfl
    · exact Nat.le_of_add_right_le (ih l hl)

/-- Each lexeme starts behind the one before it. -/
theorem pairwise_position (h : Cut p t ls) : (ls.map Lexeme.position).Pairwise (· < ·) := by
  rw [List.pairwise_map]
  induction h with
  | nil => exact .nil
  | blank _ _ ih => exact ih
  | single _ _ hcut ih => exact .cons (fun l hl => hcut.position_le l hl) ih
  | run hl hcut ih =>
    have hpos := List.length_pos_iff.mpr hl.nonempty
    refine .cons (fun l hmem => ?_) ih
    have := hcut.position_le l hmem
    simp only
    omega

end Cut

theorem LiteralFor.literalValue?_eq (h : LiteralFor l x) :
    literalValue? l = some (.ofRank false (rankOf x)) := by
  cases h with
  | whole hds hne => rw [literalValue?_whole hds, if_neg hne, ofDecimal_eq, pow_zero, div_one]
  | point hds hfs hne => rw [literalValue?_point hds, if_neg hne, ofDecimal_eq]

theorem LongestRun.literalFor (h : LongestRun l t) (hpoint : l ≠ ['.']) : ∃ x, LiteralFor l x := by
  cases h.literal with
  | whole hds hne _ => exact ⟨_, .whole hds hne⟩
  | @point ds fs t hds hfs _ =>
    refine ⟨_, .point hds hfs ?_⟩
    intro hnil
    obtain ⟨rfl, rfl⟩ := List.append_eq_nil_iff.mp hnil
    exact hpoint rfl

theorem not_isArithmetic (hblank : isBlank c = false) (hstart : startsNumber c = false)
    (hsymbol : symbolOf? c = none) : isArithmetic c = false := by
  rw [startsNumber, Bool.or_eq_false_iff, beq_eq_false_iff_ne] at hstart
  have hmark : c ∉ ['+', '-', '*', '/', '(', ')', '.'] := by
    intro hmem
    simp only [List.mem_cons, List.not_mem_nil, or_false] at hmem
    rcases hmem with rfl | rfl | rfl | rfl | rfl | rfl | rfl
    all_goals simp [symbolOf?] at hsymbol hstart
  simp [isArithmetic, hstart.1, hmark, hblank]

/-- The scanner goes from lexeme to lexeme. -/
theorem Cut.reading (h : Cut p t ls) (found : List Token) :
    Reading ls found (scanFrom p found t) := by
  induction h generalizing found with
  | nil =>
    rw [scanFrom]
    exact .done
  | blank hblank _ ih =>
    rw [scanFrom, if_pos hblank]
    exact ih found
  | @single p c t ls hblank hstart _ ih =>
    rw [scanFrom, if_neg (by simp [hblank])]
    cases hsymbol : symbolOf? c with
    | some s => exact .next (.symbol hsymbol) (ih _)
    | none =>
      rw [dif_neg (by simp [hstart])]
      exact .stop (.foreign (not_isArithmetic hblank hstart hsymbol))
  | @run p l t ls hl _ ih =>
    by_cases hpoint : l = ['.']
    · subst hpoint
      have hsplit : splitNumber ('.' :: t) = (['.'], t) := splitNumber_literal hl.literal
      rw [List.singleton_append, scanFrom, if_neg (by decide)]
      simp only [show symbolOf? '.' = none from rfl, show startsNumber '.' = true from rfl, dif_pos,
        hsplit]
      exact .stop .point
    · obtain ⟨x, hx⟩ := hl.literalFor hpoint
      rw [scanFrom_literal hl.literal hx.literalValue?_eq]
      exact .next (.number hx) (ih _)

theorem Reading.writes (h : Reading ls found (.ok tokens)) :
    ∃ rest, tokens = found.reverse ++ rest ∧ List.Forall₂ Lexeme.Writes ls rest := by
  generalize hresult : Except.ok tokens = result at h
  induction h with
  | done =>
    cases hresult
    exact ⟨[], by simp, .nil⟩
  | @next l ls token found result hl _ ih =>
    obtain ⟨rest, hrest, hls⟩ := ih hresult
    exact ⟨token :: rest, by simpa using hrest, .cons hl hls⟩
  | stop => cases hresult

theorem Reading.first_failure (h : Reading ls found (.error why)) :
    ∃ before l after, ls = before ++ l :: after ∧ (∀ b ∈ before, ∃ token, b.Writes token) ∧
      l.Fails why := by
  generalize hresult : Except.error why = result at h
  induction h with
  | done => cases hresult
  | @next l ls token found result hl _ ih =>
    obtain ⟨before, b, after, rfl, hbefore, hb⟩ := ih hresult
    refine ⟨l :: before, b, after, rfl, ?_, hb⟩
    simpa using ⟨⟨token, hl⟩, hbefore⟩
  | @stop l ls found why hl =>
    cases hresult
    exact ⟨[], l, ls, rfl, by simp, hl⟩

theorem Lexeme.Writes.position_eq (h : lexeme.Writes token) : token.position = lexeme.position := by
  cases h <;> rfl

theorem Lexeme.Writes.arithmetic (h : lexeme.Writes token) :
    lexeme.text ≠ ['.'] ∧ ∀ c ∈ lexeme.text, isArithmetic c = true := by
  cases h with
  | @symbol c p s hs =>
    refine ⟨?_, by simpa using isArithmetic_of_symbolOf? hs⟩
    intro hpoint
    obtain rfl : c = '.' := List.singleton_inj.mp hpoint
    cases hs
  | @number l p x hl =>
    obtain ⟨v, hliteral, hv, -⟩ := hl.reads (t := []) (by simp)
    have hstarts := startsNumber_of_mem_literal hliteral
    refine ⟨?_, fun c hc => isArithmetic_of_startsNumber (hstarts c hc)⟩
    intro hpoint
    rw [show l = ['.'] from hpoint] at hv
    cases hv

theorem Lexeme.Fails.text_cases (h : lexeme.Fails why) :
    lexeme.text = ['.'] ∨ ∃ c ∈ lexeme.text, isArithmetic c = false := by
  cases h with
  | point => exact Or.inl rfl
  | foreign hc => exact Or.inr ⟨_, List.mem_singleton_self _, hc⟩

theorem positions_eq (h : List.Forall₂ Lexeme.Writes ls tokens) :
    tokens.map position = ls.map Lexeme.position := by
  have hpositions : List.Forall₂ (· = ·) (tokens.map position) (ls.map Lexeme.position) := by
    rw [List.forall₂_map_left_iff, List.forall₂_map_right_iff]
    exact (h.imp fun _ _ hwrites => hwrites.position_eq).flip
  rwa [List.forall₂_eq_eq_eq] at hpositions

/-- What is written in tokens is arithmetic without a lone point. -/
theorem Cut.arithmetic (h : Cut p t ls) (hls : List.Forall₂ Lexeme.Writes ls tokens) :
    (∀ c ∈ t, isArithmetic c = true) ∧ ∀ l ∈ ls, l.text ≠ ['.'] := by
  have hboth : List.Forall₂ (fun l token => (l.text ≠ ['.'] ∧ ∀ c ∈ l.text, isArithmetic c = true) ∧
      Lexeme.Writes l token) ls tokens := hls.imp fun _ _ hl => ⟨hl.arithmetic, hl⟩
  obtain ⟨hlexemes, -⟩ := (List.forall₂_and_left ls tokens).mp hboth
  refine ⟨?_, fun l hl => (hlexemes l hl).1⟩
  intro c hc
  by_cases hblank : isBlank c = true
  · simp [isArithmetic, hblank]
  · obtain ⟨l, hl, hcl⟩ := h.mem_lexeme_iff.mpr ⟨hc, eq_false_of_ne_true hblank⟩
    exact (hlexemes l hl).2 c hcl

/-- The lexemes of a text hold every character that is not blank, in its place and once. The text is
scanned just if it is arithmetic and no lexeme is a lone point; then each lexeme writes its token,
and the tokens are in order. If it is not, the fault is that of the first lexeme that writes no
token. -/
theorem Token.scan_lexemes (t : Text) : (∃ ls, Cut 0 t ls) ∧ ∀ ls, Cut 0 t ls →
    (ls.flatMap fun l => l.text.zipIdx l.position) =
      t.zipIdx.filter (fun entry => !isBlank entry.1) ∧
    ((∃ tokens, scan t = .ok tokens) ↔
      (∀ c ∈ t, isArithmetic c = true) ∧ ∀ l ∈ ls, l.text ≠ ['.']) ∧
    (∀ tokens, scan t = .ok tokens →
      List.Forall₂ Lexeme.Writes ls tokens ∧ (tokens.map position).Pairwise (· < ·)) ∧
    ∀ why, scan t = .error why → ∃ before l after, ls = before ++ l :: after ∧
      (∀ b ∈ before, ∃ token, b.Writes token) ∧ l.Fails why := by
  refine ⟨exists_cut 0 t, ?_⟩
  intro ls hcut
  have hreading := hcut.reading []
  have hwrites : ∀ tokens, scan t = .ok tokens → List.Forall₂ Lexeme.Writes ls tokens := by
    intro tokens hscan
    rw [← scan, hscan] at hreading
    obtain ⟨rest, rfl, hls⟩ := hreading.writes
    exact hls
  have hfails : ∀ why, scan t = .error why → ∃ before l after, ls = before ++ l :: after ∧
      (∀ b ∈ before, ∃ token, b.Writes token) ∧ l.Fails why := by
    intro why hscan
    rw [← scan, hscan] at hreading
    exact hreading.first_failure
  refine ⟨hcut.zipIdx_eq, ⟨?_, ?_⟩, ?_, hfails⟩
  · rintro ⟨tokens, hscan⟩
    exact hcut.arithmetic (hwrites tokens hscan)
  · rintro ⟨hchars, hpoints⟩
    cases hscan : scan t with
    | ok tokens => exact ⟨tokens, rfl⟩
    | error why =>
      obtain ⟨before, l, after, rfl, -, hl⟩ := hfails why hscan
      rcases hl.text_cases with hpoint | ⟨c, hc, hforeign⟩
      · exact absurd hpoint (hpoints l (by simp))
      · obtain ⟨hmem, -⟩ := hcut.mem_lexeme_iff.mp ⟨l, by simp, hc⟩
        rw [hchars c hmem] at hforeign
        cases hforeign
  · intro tokens hscan
    have hls := hwrites tokens hscan
    rw [positions_eq hls]
    exact ⟨hls, hcut.pairwise_position⟩

end KeypadCalculator
