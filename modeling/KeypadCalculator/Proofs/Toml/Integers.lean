import Mathlib.Tactic.SplitIfs
import KeypadCalculator.Proofs.Toml.Grammar

/-!
An integer is read as the number that it writes, as long as 128 bits hold it. A larger one is no
value of any other kind.
-/

namespace KeypadCalculator.Toml

variable {base d n : ℕ} {z : ℤ} {c : Char} {ds : List ℕ} {t u : Text}

/-- What holds of each digit in both cases holds of a digit. -/
theorem IsDigit.of_forall {p : ℕ → Char → Prop} (h : IsDigit base d c)
    (hall : ∀ d < base, p d (Nat.digitChar d) ∧ p d (Nat.digitChar d).toUpper) : p d c := by
  obtain ⟨hd, rfl | rfl⟩ := h
  · exact (hall d hd).1
  · exact (hall d hd).2

theorem IsDigit.mono {base' : ℕ} (h : IsDigit base d c) (hbase : base ≤ base') :
    IsDigit base' d c :=
  ⟨Nat.lt_of_lt_of_le h.1 hbase, h.2⟩

theorem IsDigit.hexDigit? (h : IsDigit 16 d c) : hexDigit? c = some d :=
  h.of_forall (p := fun d c => Toml.hexDigit? c = some d) (by decide)

theorem IsDigit.isAlphanum (h : IsDigit 16 d c) : c.isAlphanum = true :=
  h.of_forall (p := fun _ c => c.isAlphanum = true) (by decide)

theorem IsDigit.isDigit (h : IsDigit 10 d c) : c.isDigit = true :=
  h.of_forall (p := fun _ c => c.isDigit = true) (by decide)

theorem IsDigit.toNat (h : IsDigit 10 d c) : c.toNat - '0'.toNat = d :=
  h.of_forall (p := fun d c => c.toNat - '0'.toNat = d) (by decide)

theorem IsDigit.isBaseDigit (h : IsDigit base d c) (hbase : base ≤ 16) :
    isBaseDigit base c = true := by
  simp only [Toml.isBaseDigit, (h.mono hbase).hexDigit?, decide_eq_true h.1]

theorem baseValue_eq_number (h : List.Forall₂ (IsDigit base) ds t) (hbase : base ≤ 16) :
    baseValue base t = number base ds := by
  have hfold (m : ℕ) : t.foldl (fun n c => base * n + (Toml.hexDigit? c).getD 0) m =
      ds.foldl (fun n d => base * n + d) m := by
    induction h generalizing m with
    | nil => rfl
    | cons hd h ih =>
      rw [List.foldl_cons, List.foldl_cons, (hd.mono hbase).hexDigit?, Option.getD_some, ih]
  exact hfold 0

theorem digitsValue_eq_number (h : List.Forall₂ (IsDigit 10) ds t) :
    Text.digitsValue t = number 10 ds := by
  have hfold (m : ℕ) : Nat.ofDigitChars 10 t m = ds.foldl (fun n d => 10 * n + d) m := by
    induction h generalizing m with
    | nil => rfl
    | cons hd h ih => rw [Nat.ofDigitChars_cons, List.foldl_cons, hd.toNat, ih]
  exact hfold 0

theorem Grouped.exists_cons (h : Grouped base ds t) : ∃ d c u, t = c :: u ∧ IsDigit base d c := by
  cases h with
  | single hd => exact ⟨_, _, _, rfl, hd⟩
  | next hd h => exact ⟨_, _, _, rfl, hd⟩
  | underscore hd h => exact ⟨_, _, _, rfl, hd⟩

theorem Grouped.eq_digit_or_underscore (h : Grouped base ds t) (hc : c ∈ t) :
    (∃ d, IsDigit base d c) ∨ c = '_' := by
  induction h with
  | single hd =>
    rw [List.mem_singleton] at hc
    exact .inl ⟨_, hc ▸ hd⟩
  | next hd h ih =>
    rcases List.mem_cons.mp hc with rfl | hc
    · exact .inl ⟨_, hd⟩
    · exact ih hc
  | underscore hd h ih =>
    rcases List.mem_cons.mp hc with rfl | hc
    · exact .inl ⟨_, hd⟩
    rcases List.mem_cons.mp hc with rfl | hc
    · exact .inr rfl
    · exact ih hc

/-- The underscores go, and the digits stay. -/
theorem Grouped.ungroup? {p : Char → Bool} (h : Grouped base ds t) (hbase : base ≤ 16)
    (hp : ∀ d c, IsDigit base d c → p c = true) :
    ∃ u, ungroup? p t = some u ∧ List.Forall₂ (IsDigit base) ds u := by
  induction h with
  | @single d c hd =>
    refine ⟨[c], ?_, .cons hd .nil⟩
    rw [Toml.ungroup?, if_pos (hp d c hd)]
  | @next d c ds t hd h ih =>
    obtain ⟨u, hu, hdigits⟩ := ih
    refine ⟨c :: u, ?_, .cons hd hdigits⟩
    obtain ⟨e, b, v, rfl, he⟩ := h.exists_cons
    have hb : b ≠ '_' := by
      rintro rfl
      cases (he.mono hbase).hexDigit?
    rw [Toml.ungroup?, if_pos (hp d c hd), hu]
    · rfl
    · exact List.cons_ne_nil _ _
    · rintro w heq
      exact hb (List.cons.inj heq).1
  | @underscore d c ds t hd h ih =>
    obtain ⟨u, hu, hdigits⟩ := ih
    refine ⟨c :: u, ?_, .cons hd hdigits⟩
    rw [Toml.ungroup?, if_pos (hp d c hd), hu]
    rfl

theorem Grouped.baseInteger? (h : Grouped base ds t) (hbase : base ≤ 16) :
    baseInteger? base t = some (number base ds : ℤ) := by
  obtain ⟨u, hu, hdigits⟩ := h.ungroup? hbase fun _ _ hd => hd.isBaseDigit hbase
  rw [Toml.baseInteger?, hu, Option.map_some, baseValue_eq_number hdigits hbase]

theorem Natural.decimalDigits? (h : Natural n t) :
    ∃ u, decimalDigits? t = some u ∧ Text.digitsValue u = n := by
  obtain ⟨hgrouped, hlead⟩ := h
  obtain ⟨u, hu, hdigits⟩ := hgrouped.ungroup? (by decide) fun _ _ hd => hd.isDigit
  refine ⟨u, ?_, digitsValue_eq_number hdigits⟩
  rw [Toml.decimalDigits?, hu]
  split
  · next hzero =>
    -- A zero in front of another digit would be the only digit.
    obtain rfl := Option.some.inj hzero
    cases hdigits with
    | cons hd hdigits =>
      obtain rfl := Option.some.inj ((hd.mono (by decide)).hexDigit?.symm.trans rfl)
      rw [(List.cons.inj (hlead rfl)).2] at hdigits
      cases hdigits
  · rfl

theorem Natural.exists_cons (h : Natural n t) : ∃ c u, t = c :: u ∧ c.isDigit = true := by
  obtain ⟨hgrouped, -⟩ := h
  obtain ⟨d, c, u, rfl, hd⟩ := hgrouped.exists_cons
  exact ⟨c, u, rfl, hd.isDigit⟩

theorem Natural.isDigit_or_underscore (h : Natural n t) (hc : c ∈ t) :
    c.isDigit = true ∨ c = '_' := by
  obtain ⟨hgrouped, -⟩ := h
  rcases hgrouped.eq_digit_or_underscore hc with ⟨d, hd⟩ | rfl
  · exact .inl hd.isDigit
  · exact .inr rfl

theorem Natural.decimalInteger? (h : Natural n t) :
    decimalInteger? t = some (n : ℤ) ∧ Toml.decimalInteger? ('+' :: t) = some (n : ℤ) ∧
      Toml.decimalInteger? ('-' :: t) = some (-(n : ℤ)) := by
  obtain ⟨u, hu, hvalue⟩ := h.decimalDigits?
  refine ⟨?_, ?_, ?_⟩
  · obtain ⟨c, v, rfl, hc⟩ := h.exists_cons
    unfold Toml.decimalInteger?
    split
    · next heq =>
      obtain rfl := (List.cons.inj heq).1
      cases hc
    · next heq =>
      obtain rfl := (List.cons.inj heq).1
      cases hc
    · rw [hu, Option.map_some, hvalue]
  · rw [Toml.decimalInteger?, hu, Option.map_some, hvalue]
  · rw [Toml.decimalInteger?, hu, Option.map_some, hvalue]

theorem filter_fits {n? : Option ℤ} (h : n? = some z) :
    (n?.filter fun n => -(Nat.pow 2 127 : ℤ) ≤ n ∧ n < (Nat.pow 2 128 : ℤ)) =
      if Fits z then some z else none := by
  rw [h, Option.filter_some]
  exact ite_congr (propext (by simp [Fits])) (fun _ => rfl) fun _ => rfl

theorem integer?_of_decimalInteger? (h : decimalInteger? t = some z)
    (hmark : ∀ c ∈ t.tail.head?, c ∉ ['x', 'o', 'b']) :
    integer? t = if Fits z then some z else none := by
  refine filter_fits ?_
  split
  · exact absurd (hmark 'x' rfl) (by decide)
  · exact absurd (hmark 'o' rfl) (by decide)
  · exact absurd (hmark 'b' rfl) (by decide)
  · exact h

theorem Natural.not_mem_marks (h : Natural n t) (hc : c ∈ t) : c ∉ ['x', 'o', 'b'] := by
  rcases h.isDigit_or_underscore hc with hdigit | rfl
  · intro hmark
    simp only [List.mem_cons, List.not_mem_nil, or_false] at hmark
    rcases hmark with rfl | rfl | rfl <;> cases hdigit
  · decide

theorem Integer.integer? (h : Integer z t) : integer? t = if Fits z then some z else none := by
  cases h with
  | unsigned h =>
    exact integer?_of_decimalInteger? h.decimalInteger?.1 fun c hc =>
      h.not_mem_marks (List.mem_of_mem_tail (List.mem_of_mem_head? hc))
  | positive h =>
    exact integer?_of_decimalInteger? h.decimalInteger?.2.1 fun c hc =>
      h.not_mem_marks (List.mem_of_mem_head? hc)
  | negative h =>
    exact integer?_of_decimalInteger? h.decimalInteger?.2.2 fun c hc =>
      h.not_mem_marks (List.mem_of_mem_head? hc)
  | based hmark hgrouped =>
    refine filter_fits ?_
    simp only [List.mem_cons, Prod.mk.injEq, List.not_mem_nil, or_false] at hmark
    rcases hmark with ⟨rfl, rfl⟩ | ⟨rfl, rfl⟩ | ⟨rfl, rfl⟩
    · exact hgrouped.baseInteger? (by decide)
    · exact hgrouped.baseInteger? (by decide)
    · exact hgrouped.baseInteger? (by decide)

/-- What the words of integers are made of. -/
def isIntegerChar (c : Char) : Bool := c.isAlphanum || c == '_'

theorem Grouped.isIntegerChar (h : Grouped base ds t) (hbase : base ≤ 16) (hc : c ∈ t) :
    isIntegerChar c = true := by
  rcases h.eq_digit_or_underscore hc with ⟨d, hd⟩ | rfl
  · simp [Toml.isIntegerChar, (hd.mono hbase).isAlphanum]
  · rfl

/-- A digit first, then letters, digits and underscores. -/
structure IsUnsignedWord (t : Text) : Prop where
  head : ∃ c u, t = c :: u ∧ c.isDigit = true
  chars : ∀ c ∈ t, isIntegerChar c = true

theorem Natural.isUnsignedWord (h : Natural n t) : IsUnsignedWord t := by
  refine ⟨h.exists_cons, fun c hc => ?_⟩
  obtain ⟨hgrouped, -⟩ := h
  exact hgrouped.isIntegerChar (by decide) hc

theorem isUnsignedWord_based {mark : Char}
    (hmark : (mark, base) ∈ [('x', 16), ('o', 8), ('b', 2)]) (h : Grouped base ds t) :
    IsUnsignedWord ('0' :: mark :: t) := by
  refine ⟨⟨'0', _, rfl, rfl⟩, ?_⟩
  simp only [List.mem_cons, Prod.mk.injEq, List.not_mem_nil, or_false] at hmark
  simp only [List.forall_mem_cons]
  rcases hmark with ⟨rfl, rfl⟩ | ⟨rfl, rfl⟩ | ⟨rfl, rfl⟩
  · exact ⟨rfl, rfl, fun c hc => h.isIntegerChar (by decide) hc⟩
  · exact ⟨rfl, rfl, fun c hc => h.isIntegerChar (by decide) hc⟩
  · exact ⟨rfl, rfl, fun c hc => h.isIntegerChar (by decide) hc⟩

theorem Integer.exists_sign (h : Integer z t) :
    ∃ sign u, t = sign ++ u ∧ sign ∈ [[], ['+'], ['-']] ∧ IsUnsignedWord u := by
  cases h with
  | unsigned h => exact ⟨[], _, rfl, by simp, h.isUnsignedWord⟩
  | positive h => exact ⟨['+'], _, rfl, by simp, h.isUnsignedWord⟩
  | negative h => exact ⟨['-'], _, rfl, by simp, h.isUnsignedWord⟩
  | based hmark h => exact ⟨[], _, rfl, by simp, isUnsignedWord_based hmark h⟩

theorem IsUnsignedWord.unsigned {sign : Text} (h : IsUnsignedWord u)
    (hsign : sign ∈ [[], ['+'], ['-']]) : unsigned (sign ++ u) = u := by
  obtain ⟨c, v, rfl, hc⟩ := h.head
  simp only [List.mem_cons, List.not_mem_nil, or_false] at hsign
  rcases hsign with rfl | rfl | rfl
  · unfold Toml.unsigned
    split
    · next heq =>
      obtain rfl := (List.cons.inj heq).1
      cases hc
    · next heq =>
      obtain rfl := (List.cons.inj heq).1
      cases hc
    · rfl
  · rfl
  · rfl

theorem IsUnsignedWord.ne {word : Text} (h : IsUnsignedWord t)
    (hword : word.head?.any Char.isDigit = false) : t ≠ word := by
  rintro rfl
  obtain ⟨c, v, rfl, hc⟩ := h.head
  rw [List.head?_cons, Option.any_some, hc] at hword
  cases hword

theorem isSpecialFloat_eq_false (h : IsUnsignedWord (unsigned t)) : isSpecialFloat t = false := by
  have hinf : unsigned t ≠ "inf".toList := h.ne rfl
  have hnan : unsigned t ≠ "nan".toList := h.ne rfl
  rw [isSpecialFloat, decide_eq_false hinf, decide_eq_false hnan, Bool.or_self]

/-- A float has a point or the mark of an exponent. -/
theorem isFloat_eq_false (h : ∀ c ∈ unsigned t, c ∉ ['.', 'e', 'E']) : isFloat t = false := by
  have hmarks : ((unsigned t).any fun c => c == '.' || (c == 'e' || c == 'E')) = false := by
    rw [List.any_eq_false]
    intro c hc
    have hmark := h c hc
    simp_all
  unfold isFloat
  dsimp only
  split
  · rw [hmarks, Bool.false_and]
  · rfl

theorem ungroup?_eq_none {p : Char → Bool} (h : p c = false) (t : Text) :
    ungroup? p (c :: t) = none := by
  unfold ungroup?
  split
  all_goals simp_all

/-- No float starts with the mark of another base. -/
theorem isFloat_based {mark : Char} (hmark : mark ∈ ['x', 'o', 'b']) (t : Text) :
    isFloat ('0' :: mark :: t) = false := by
  simp only [List.mem_cons, List.not_mem_nil, or_false] at hmark
  have hletter : mark.isDigit = false ∧ mark ≠ '_' := by
    rcases hmark with rfl | rfl | rfl <;> decide
  have hnone (u : Text) : Toml.decimalDigits? ('0' :: mark :: u) = none := by
    rw [Toml.decimalDigits?, ungroup?, ungroup?_eq_none hletter.1]
    · rfl
    · exact List.cons_ne_nil _ _
    · rintro v heq
      exact hletter.2 (List.cons.inj heq).1
  rcases hmark with rfl | rfl | rfl <;> simp [isFloat, Toml.unsigned, hnone]

theorem skip?_eq_none (h : c ∉ t) : skip? c t = none := by
  cases t with
  | nil => rfl
  | cons d t =>
    have hd : d ≠ c := by
      rintro rfl
      exact h List.mem_cons_self
    exact if_neg hd

theorem fixedDigits?_eq_some {count : ℕ} (h : fixedDigits? count t = some (n, u)) :
    u = t.drop count := by
  simp only [fixedDigits?] at h
  split at h
  · exact (Prod.mk.inj (Option.some.inj h)).2.symm
  · cases h

/-- A date has a dash behind its year, and a time a colon behind its hours. -/
theorem isMoment_eq_false (hdash : '-' ∉ t.tail) (hcolon : ':' ∉ t) : isMoment t = false := by
  have hdate : afterDate? t = none := by
    unfold afterDate?
    cases hyear : fixedDigits? 4 t with
    | none => rfl
    | some year =>
      obtain ⟨year, rest⟩ := year
      have hskip : skip? '-' rest = none := by
        refine skip?_eq_none fun hmem => hdash ?_
        rw [fixedDigits?_eq_some hyear] at hmem
        exact List.mem_of_mem_drop (by simpa using hmem : '-' ∈ t.tail.drop 3)
      simp [hskip]
  have htime : afterTime? t = none := by
    unfold afterTime? afterMinutes?
    cases hhour : fixedDigits? 2 t with
    | none => rfl
    | some hour =>
      obtain ⟨hour, rest⟩ := hour
      have hskip : skip? ':' rest = none := by
        refine skip?_eq_none fun hmem => hcolon ?_
        rw [fixedDigits?_eq_some hhour] at hmem
        exact List.mem_of_mem_drop hmem
      simp [hskip]
  simp [isMoment, hdate, htime]

theorem Natural.not_mem_float_marks (h : Natural n t) (hc : c ∈ t) : c ∉ ['.', 'e', 'E'] := by
  rcases h.isDigit_or_underscore hc with hdigit | rfl
  · intro hmark
    simp only [List.mem_cons, List.not_mem_nil, or_false] at hmark
    rcases hmark with rfl | rfl | rfl <;> cases hdigit
  · decide

theorem Integer.isFloat_eq_false (h : Integer z t) : isFloat t = false := by
  cases h with
  | unsigned h =>
    have hunsigned : Toml.unsigned t = t := h.isUnsignedWord.unsigned List.mem_cons_self
    exact Toml.isFloat_eq_false fun c hc => h.not_mem_float_marks (hunsigned ▸ hc)
  | positive h => exact Toml.isFloat_eq_false fun c hc => h.not_mem_float_marks hc
  | negative h => exact Toml.isFloat_eq_false fun c hc => h.not_mem_float_marks hc
  | @based mark base ds t hmark h =>
    refine isFloat_based ?_ t
    have hmap := List.mem_map_of_mem (f := Prod.fst) hmark
    exact hmap

theorem Integer.isMoment_eq_false (h : Integer z t) : isMoment t = false := by
  obtain ⟨sign, u, rfl, hsign, hu⟩ := h.exists_sign
  have hchars (c : Char) (hc : isIntegerChar c = false) : c ∉ u := by
    intro hmem
    rw [hu.chars c hmem] at hc
    cases hc
  have hdash : '-' ∉ u := hchars '-' rfl
  have hcolon : ':' ∉ u := hchars ':' rfl
  simp only [List.mem_cons, List.not_mem_nil, or_false] at hsign
  refine Toml.isMoment_eq_false ?_ ?_
  · rcases hsign with rfl | rfl | rfl
    · exact fun hmem => hdash (List.mem_of_mem_tail hmem)
    · exact hdash
    · exact hdash
  · rcases hsign with rfl | rfl | rfl <;> simpa using hcolon

/-- An integer that does not fit is not taken for a value of another kind. -/
theorem Integer.scalar? (h : Integer z t) :
    scalar? t = if Fits z then some (.integer z) else none := by
  obtain ⟨sign, u, hsplit, hsign, hu⟩ := h.exists_sign
  have hunsigned : IsUnsignedWord (Toml.unsigned t) := by
    rw [hsplit, hu.unsigned hsign]
    exact hu
  have htrue : t ≠ "true".toList := by
    rintro rfl
    exact hunsigned.ne rfl rfl
  have hfalse : t ≠ "false".toList := by
    rintro rfl
    exact hunsigned.ne rfl rfl
  rw [Toml.scalar?, if_neg htrue, if_neg hfalse, h.integer?, isSpecialFloat_eq_false hunsigned,
    h.isFloat_eq_false, h.isMoment_eq_false]
  by_cases hfits : Fits z
  · rw [if_pos hfits, if_pos hfits]
  · rw [if_neg hfits, if_neg hfits]
    rfl

theorem Integer.all_isWordChar (h : Integer z t) : t.all isWordChar = true := by
  obtain ⟨sign, u, rfl, hsign, hu⟩ := h.exists_sign
  rw [List.all_append, Bool.and_eq_true]
  constructor
  · simp only [List.mem_cons, List.not_mem_nil, or_false] at hsign
    rcases hsign with rfl | rfl | rfl <;> rfl
  · rw [List.all_eq_true]
    intro c hc
    have hchar := hu.chars c hc
    simp only [isIntegerChar, Bool.or_eq_true, beq_iff_eq] at hchar
    rcases hchar with hchar | rfl
    · simp only [isWordChar, hchar, Bool.true_or]
    · rfl

end KeypadCalculator.Toml
