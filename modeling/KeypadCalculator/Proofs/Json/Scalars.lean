import KeypadCalculator.Proofs.Json.Grammar

/-!
Readers of JSON strings and numbers. They take the text they start at and return what they read with
the rest, and each is held against its part of the grammar.
-/

namespace KeypadCalculator.Json

variable {c : Char} {n : ℕ} {z : ℤ} {t u rest ds fs f e : Text} {d : Decimal}
  {x : Binary64}

def code? (t : Text) : Option (ℕ × Text) :=
  let ds := t.take 4
  if ds.length = 4 ∧ ds.all (Toml.isBaseDigit 16) then some (Toml.baseValue 16 ds, t.drop 4)
  else none

/-- The character of a first surrogate, with the second one behind it. -/
def paired? (n : ℕ) : Text → Option (Char × Text)
  | '\\' :: 'u' :: t =>
    (code? t).bind fun (m, rest) =>
      if AreSurrogates n m then some (Char.ofNat (surrogatesValue n m), rest) else none
  | _ => none

/-- A character by its number or by two surrogates, from the first digit on. -/
def numbered? (t : Text) : Option (Char × Text) :=
  (code? t).bind fun (n, rest) =>
    if n.isValidChar then some (Char.ofNat n, rest) else paired? n rest

def letter? : Text → Option (Char × Text)
  | '\\' :: 'u' :: t => numbered? t
  | '\\' :: e :: t => (namedEscape? e).map fun c => (c, t)
  | c :: t => if isPlain c then some (c, t) else none
  | [] => none

/-- A string from behind its opening quote on. -/
def letters? (t : Text) : Option (Text × Text) :=
  match t with
  | '"' :: rest => some ([], rest)
  | t =>
    match letter? t with
    | none => none
    | some (c, rest) =>
      if _h : rest.length < t.length then (letters? rest).map fun (u, rest) => (c :: u, rest)
      else none
termination_by t.length

theorem code?_eq_some_iff : code? t = some (n, rest) ↔ ∃ ds, IsCode n ds ∧ t = ds ++ rest := by
  simp only [code?]
  constructor
  · intro h
    split at h
    · next hdigits =>
      obtain ⟨rfl, rfl⟩ := Prod.mk.inj (Option.some.inj h)
      exact ⟨t.take 4, ⟨hdigits.1, hdigits.2, rfl⟩, (List.take_append_drop 4 t).symm⟩
    · cases h
  · rintro ⟨ds, hcode, rfl⟩
    have htake : (ds ++ rest).take 4 = ds := List.take_left' hcode.length
    have hdrop : (ds ++ rest).drop 4 = rest := List.drop_left' hcode.length
    rw [htake, hdrop, if_pos ⟨hcode.length, hcode.digits⟩, hcode.value]

theorem isValidChar_surrogatesValue {m : ℕ} (h : AreSurrogates n m) :
    (surrogatesValue n m).isValidChar := by
  have hn := h.1
  have hm := h.2
  refine Or.inr ⟨?_, ?_⟩
  · unfold surrogatesValue
    omega
  · unfold surrogatesValue
    omega

/-- A surrogate is no character. -/
theorem not_isValidChar_of_areSurrogates {m : ℕ} (h : AreSurrogates n m) : ¬ n.isValidChar := by
  have hn := h.1
  rintro (hlow | ⟨hhigh, -⟩)
  · omega
  · omega

theorem numbered?_code (h : IsCode c.toNat ds) (rest : Text) :
    numbered? (ds ++ rest) = some (c, rest) := by
  have hcode : code? (ds ++ rest) = some (c.toNat, rest) := code?_eq_some_iff.mpr ⟨ds, h, rfl⟩
  have hvalid : c.toNat.isValidChar := c.valid
  simp only [numbered?, hcode, Option.bind_some, if_pos hvalid, Char.ofNat_toNat]

theorem numbered?_surrogates {m : ℕ} {es : Text} (hn : IsCode n ds) (hm : IsCode m es)
    (h : AreSurrogates n m) (hc : c.toNat = surrogatesValue n m) (rest : Text) :
    numbered? (ds ++ '\\' :: 'u' :: (es ++ rest)) = some (c, rest) := by
  have hfirst : code? (ds ++ '\\' :: 'u' :: (es ++ rest)) = some (n, _) :=
    code?_eq_some_iff.mpr ⟨ds, hn, rfl⟩
  have hsecond : code? (es ++ rest) = some (m, rest) := code?_eq_some_iff.mpr ⟨es, hm, rfl⟩
  simp only [numbered?, hfirst, Option.bind_some, if_neg (not_isValidChar_of_areSurrogates h),
    paired?, hsecond, if_pos h]
  rw [← hc, Char.ofNat_toNat]

theorem toNat_ofNat (h : n.isValidChar) : (Char.ofNat n).toNat = n := by
  rw [Char.ofNat, dif_pos h]
  rfl

theorem paired?_sound (h : paired? n t = some (c, rest)) (hds : IsCode n ds) :
    ∃ u, Letter c ('\\' :: 'u' :: (ds ++ u)) ∧ t = u ++ rest := by
  unfold paired? at h
  split at h
  · obtain ⟨⟨m, after⟩, hcode, hread⟩ := Option.bind_eq_some_iff.mp h
    obtain ⟨es, hes, rfl⟩ := code?_eq_some_iff.mp hcode
    dsimp only at hread
    split at hread
    · next hsurrogates =>
      obtain ⟨rfl, rfl⟩ := Prod.mk.inj (Option.some.inj hread)
      have hvalue := toNat_ofNat (isValidChar_surrogatesValue hsurrogates)
      exact ⟨_, .surrogates hds hes hsurrogates hvalue, rfl⟩
    · cases hread
  · cases h

theorem numbered?_sound (h : numbered? t = some (c, rest)) :
    ∃ u, Letter c ('\\' :: 'u' :: u) ∧ t = u ++ rest := by
  obtain ⟨⟨n, after⟩, hcode, hread⟩ := Option.bind_eq_some_iff.mp h
  obtain ⟨ds, hds, rfl⟩ := code?_eq_some_iff.mp hcode
  dsimp only at hread
  split at hread
  · next hvalid =>
    obtain ⟨rfl, rfl⟩ := Prod.mk.inj (Option.some.inj hread)
    exact ⟨ds, .code (by rwa [toNat_ofNat hvalid]), rfl⟩
  · obtain ⟨u, hletter, rfl⟩ := paired?_sound hread hds
    exact ⟨ds ++ u, hletter, (List.append_assoc _ _ _).symm⟩

theorem letter?_complete (h : Letter c u) (rest : Text) : letter? (u ++ rest) = some (c, rest) := by
  cases h with
  | plain hplain =>
    have hslash : c ≠ '\\' := by
      rintro rfl
      exact absurd hplain (by decide)
    simp only [List.singleton_append]
    rw [letter?, if_pos hplain]
    · exact fun _ heq => absurd heq hslash
    · exact fun _ _ heq => absurd heq hslash
  | @named e he =>
    have hu : e ≠ 'u' := by
      rintro rfl
      cases he
    simp only [List.cons_append, List.nil_append]
    rw [letter?, he]
    · rfl
    · exact hu
  | code hcode => exact numbered?_code hcode rest
  | surrogates hn hm hs hc =>
    have hread := numbered?_surrogates hn hm hs hc rest
    simpa [letter?] using hread

theorem letter?_sound (h : letter? t = some (c, rest)) : ∃ u, Letter c u ∧ t = u ++ rest := by
  unfold letter? at h
  split at h
  · obtain ⟨u, hletter, rfl⟩ := numbered?_sound h
    exact ⟨_, hletter, rfl⟩
  · next e t _ =>
    obtain ⟨d, hd, heq⟩ := Option.map_eq_some_iff.mp h
    obtain ⟨rfl, rfl⟩ := Prod.mk.inj heq
    exact ⟨_, .named hd, rfl⟩
  · next d t _ _ =>
    split at h
    · next hplain =>
      obtain ⟨rfl, rfl⟩ := Prod.mk.inj (Option.some.inj h)
      exact ⟨_, .plain hplain, rfl⟩
    · cases h
  · cases h

/-- Letters start with no quote. -/
theorem Letter.exists_cons (h : Letter c u) : ∃ d v, u = d :: v ∧ d ≠ '"' := by
  cases h with
  | plain hplain =>
    refine ⟨c, [], rfl, ?_⟩
    rintro rfl
    exact absurd hplain (by decide)
  | named _ => exact ⟨_, _, rfl, by decide⟩
  | code _ => exact ⟨_, _, rfl, by decide⟩
  | surrogates _ _ _ _ => exact ⟨_, _, rfl, by decide⟩

theorem letters?_complete (h : Letters t u) (rest : Text) :
    letters? (u ++ '"' :: rest) = some (t, rest) := by
  induction h with
  | nil => rw [List.nil_append, letters?]
  | @cons c t u v hletter h ih =>
    obtain ⟨d, w, rfl, hd⟩ := hletter.exists_cons
    have hread := letter?_complete hletter (v ++ '"' :: rest)
    rw [List.append_assoc]
    rw [List.cons_append] at hread ⊢
    generalize v ++ '"' :: rest = after at hread ih ⊢
    have hshorter : after.length < (d :: (w ++ after)).length := by
      rw [List.length_cons, List.length_append]
      omega
    rw [letters?]
    · simp only [hread, dif_pos hshorter, ih, Option.map_some]
    · rintro after' heq
      exact hd (List.cons.inj heq).1

theorem letters?_sound (h : letters? t = some (u, rest)) :
    ∃ v, Letters u v ∧ t = v ++ '"' :: rest := by
  fun_induction letters? t generalizing u with
  | case1 after =>
    obtain ⟨rfl, rfl⟩ := Prod.mk.inj (Option.some.inj h)
    exact ⟨[], .nil, rfl⟩
  | case2 => cases h
  | case3 t _ c after hletter hshorter ih =>
    obtain ⟨⟨w, rest'⟩, hafter, heq⟩ := Option.map_eq_some_iff.mp h
    obtain ⟨rfl, rfl⟩ := Prod.mk.inj heq
    obtain ⟨v, hv, rfl⟩ := ih hafter
    obtain ⟨u, hu, rfl⟩ := letter?_sound hletter
    exact ⟨u ++ v, .cons hu hv, by rw [List.append_assoc]⟩
  | case4 => cases h

def digits? (t : Text) : Option (Text × Text) :=
  let ds := t.takeWhile Char.isDigit
  if ds = [] then none else some (ds, t.dropWhile Char.isDigit)

def fraction? : Text → Option (Text × Text)
  | '.' :: t => digits? t
  | t => some ([], t)

/-- A power of ten from behind its mark on. -/
def power? : Text → Option (ℤ × Text)
  | '+' :: t => (digits? t).map fun (ds, rest) => ((Text.digitsValue ds : ℤ), rest)
  | '-' :: t => (digits? t).map fun (ds, rest) => (-(Text.digitsValue ds : ℤ), rest)
  | t => (digits? t).map fun (ds, rest) => ((Text.digitsValue ds : ℤ), rest)

def exponent? : Text → Option (ℤ × Text)
  | c :: t => if c ∈ ['e', 'E'] then power? t else some (0, c :: t)
  | [] => some (0, [])

def unsigned? (t : Text) : Option (Decimal × Text) :=
  (digits? t).bind fun (ds, rest) =>
    if ds.head? = some '0' ∧ ds ≠ ['0'] then none
    else
      (fraction? rest).bind fun (fs, rest) =>
        (exponent? rest).map fun (z, rest) => (⟨Text.digitsValue (ds ++ fs), z - fs.length⟩, rest)

def number? : Text → Option (Binary64 × Text)
  | '-' :: t => (unsigned? t).map fun (d, rest) => (nearestTo true d, rest)
  | t => (unsigned? t).map fun (d, rest) => (nearestTo false d, rest)

/-- Whether a number before this character would go on with it. -/
def goesOn (c : Char) : Bool := c.isDigit || c == '.' || c == 'e' || c == 'E'

/-- A number before this text has come to its end. -/
def EndsNumber (t : Text) : Prop := ∀ c ∈ t.head?, goesOn c = false

theorem digits?_complete (h : IsDigits ds) (hrest : ∀ c ∈ rest.head?, c.isDigit = false) :
    digits? (ds ++ rest) = some (ds, rest) := by
  obtain ⟨htake, hdrop⟩ := takeWhile_dropWhile_append h.digits hrest
  simp only [digits?, htake, hdrop, if_neg h.nonempty]

theorem digits?_sound (h : digits? t = some (ds, rest)) : IsDigits ds ∧ t = ds ++ rest := by
  simp only [digits?] at h
  split at h
  · cases h
  · next hne =>
    obtain ⟨rfl, rfl⟩ := Prod.mk.inj (Option.some.inj h)
    exact ⟨⟨fun _ hc => List.mem_takeWhile_imp hc, hne⟩, List.takeWhile_append_dropWhile.symm⟩

theorem fraction?_complete (h : Fraction fs f)
    (hrest : ∀ c ∈ rest.head?, c.isDigit = false ∧ c ≠ '.') :
    fraction? (f ++ rest) = some (fs, rest) := by
  cases h with
  | none =>
    rw [List.nil_append, fraction?]
    rintro t rfl
    exact (hrest '.' rfl).2 rfl
  | point hfs => exact digits?_complete hfs fun c hc => (hrest c hc).1

theorem fraction?_sound (h : fraction? t = some (fs, rest)) :
    ∃ f, Fraction fs f ∧ t = f ++ rest := by
  unfold fraction? at h
  split at h
  · obtain ⟨hfs, rfl⟩ := digits?_sound h
    exact ⟨_, .point hfs, rfl⟩
  · obtain ⟨rfl, rfl⟩ := Prod.mk.inj (Option.some.inj h)
    exact ⟨[], .none, rfl⟩

theorem power?_complete (h : IsDigits ds) (hrest : ∀ c ∈ rest.head?, c.isDigit = false) :
    power? (ds ++ rest) = some ((Text.digitsValue ds : ℤ), rest) := by
  obtain ⟨d, es, rfl⟩ := List.exists_cons_of_ne_nil h.nonempty
  have hd : d.isDigit = true := h.digits d (by simp)
  have hread := digits?_complete h hrest
  rw [List.cons_append] at hread ⊢
  rw [power?, hread]
  · rfl
  all_goals
    rintro u heq
    obtain ⟨rfl, -⟩ := List.cons.inj heq
    cases hd

theorem EndsNumber.isDigit (h : EndsNumber rest) : ∀ c ∈ rest.head?, c.isDigit = false := by
  intro c hc
  have hends := h c hc
  simp only [goesOn, Bool.or_eq_false_iff] at hends
  exact hends.1.1.1

theorem exponent?_complete (h : Exponent z e) (hrest : EndsNumber rest) :
    exponent? (e ++ rest) = some (z, rest) := by
  cases h with
  | none =>
    cases rest with
    | nil => rfl
    | cons c rest =>
      have hends := hrest c rfl
      have hmark : c ∉ ['e', 'E'] := by
        intro hmem
        simp only [List.mem_cons, List.not_mem_nil, or_false] at hmem
        rcases hmem with rfl | rfl <;> exact absurd hends (by decide)
      rw [List.nil_append, exponent?, if_neg hmark]
  | unsigned hmark hds =>
    rw [List.cons_append, exponent?, if_pos hmark, power?_complete hds hrest.isDigit]
  | positive hmark hds =>
    simp only [List.cons_append, exponent?, if_pos hmark, power?,
      digits?_complete hds hrest.isDigit, Option.map_some]
  | negative hmark hds =>
    simp only [List.cons_append, exponent?, if_pos hmark, power?,
      digits?_complete hds hrest.isDigit, Option.map_some]

theorem exponent?_sound (h : exponent? t = some (z, rest)) :
    ∃ e, Exponent z e ∧ t = e ++ rest := by
  unfold exponent? at h
  split at h
  · split at h
    · next hmark =>
      unfold power? at h
      split at h
      all_goals
        obtain ⟨⟨ds, after⟩, hread, heq⟩ := Option.map_eq_some_iff.mp h
        obtain ⟨rfl, rfl⟩ := Prod.mk.inj heq
        obtain ⟨hds, rfl⟩ := digits?_sound hread
      · exact ⟨_, .positive hmark hds, rfl⟩
      · exact ⟨_, .negative hmark hds, rfl⟩
      · exact ⟨_, .unsigned hmark hds, rfl⟩
    · obtain ⟨rfl, rfl⟩ := Prod.mk.inj (Option.some.inj h)
      exact ⟨[], .none, rfl⟩
  · obtain ⟨rfl, rfl⟩ := Prod.mk.inj (Option.some.inj h)
    exact ⟨[], .none, rfl⟩

/-- What stands behind the digits of a fraction. -/
theorem Exponent.head (h : Exponent z e) (hrest : EndsNumber rest) :
    ∀ c ∈ (e ++ rest).head?, c.isDigit = false ∧ c ≠ '.' := by
  have hmark : ∀ mark ∈ ['e', 'E'], mark.isDigit = false ∧ mark ≠ '.' := by simp
  intro c hc
  cases h with
  | none =>
    refine ⟨hrest.isDigit c hc, ?_⟩
    rintro rfl
    exact absurd (hrest '.' hc) (by decide)
  | unsigned hmem hds =>
    obtain rfl := Option.some.inj hc
    exact hmark _ hmem
  | positive hmem hds =>
    obtain rfl := Option.some.inj hc
    exact hmark _ hmem
  | negative hmem hds =>
    obtain rfl := Option.some.inj hc
    exact hmark _ hmem

theorem unsigned?_complete (h : Unsigned d t) (hrest : EndsNumber rest) :
    unsigned? (t ++ rest) = some (d, rest) := by
  obtain @⟨ds, fs, f, z, e, hds, hf, he⟩ := h
  have hpower := he.head hrest
  have hbehind : ∀ c ∈ (f ++ (e ++ rest)).head?, c.isDigit = false := by
    intro c hc
    cases hf with
    | none => exact (hpower c hc).1
    | point =>
      obtain rfl := Option.some.inj hc
      rfl
  have hlead : ¬ (ds.head? = some '0' ∧ ds ≠ ['0']) := fun hzero => hzero.2 (hds.lead hzero.1)
  simp only [unsigned?, List.append_assoc, digits?_complete ⟨hds.digits, hds.nonempty⟩ hbehind,
    Option.bind_some, if_neg hlead, fraction?_complete hf hpower, exponent?_complete he hrest,
    Option.map_some]

theorem unsigned?_sound (h : unsigned? t = some (d, rest)) : ∃ u, Unsigned d u ∧ t = u ++ rest := by
  obtain ⟨⟨ds, afterWhole⟩, hwhole, h⟩ := Option.bind_eq_some_iff.mp h
  dsimp only at h
  split at h
  · cases h
  · next hlead =>
    obtain ⟨⟨fs, afterFraction⟩, hfraction, h⟩ := Option.bind_eq_some_iff.mp h
    obtain ⟨⟨z, after⟩, hexponent, heq⟩ := Option.map_eq_some_iff.mp h
    obtain ⟨rfl, rfl⟩ := Prod.mk.inj heq
    obtain ⟨hds, rfl⟩ := digits?_sound hwhole
    obtain ⟨f, hf, rfl⟩ := fraction?_sound hfraction
    obtain ⟨e, he, rfl⟩ := exponent?_sound hexponent
    have hds : IsWhole ds := ⟨hds.digits, hds.nonempty, fun hzero => by simpa [hzero] using hlead⟩
    exact ⟨ds ++ (f ++ e), .intro hds hf he, by simp only [List.append_assoc]⟩

theorem Unsigned.exists_cons (h : Unsigned d t) : ∃ c v, t = c :: v ∧ c.isDigit = true := by
  obtain @⟨ds, fs, f, z, e, hds, hf, he⟩ := h
  obtain ⟨c, es, rfl⟩ := List.exists_cons_of_ne_nil hds.nonempty
  exact ⟨c, _, rfl, hds.digits c (by simp)⟩

theorem Numeral.exists_cons (h : Numeral x t) :
    ∃ c v, t = c :: v ∧ (c = '-' ∨ c.isDigit = true) := by
  cases h with
  | positive hd =>
    obtain ⟨c, v, rfl, hc⟩ := hd.exists_cons
    exact ⟨c, v, rfl, Or.inr hc⟩
  | negative hd => exact ⟨_, _, rfl, Or.inl rfl⟩

theorem number?_complete (h : Numeral x t) (hrest : EndsNumber rest) :
    number? (t ++ rest) = some (x, rest) := by
  cases h with
  | positive hd =>
    have hread := unsigned?_complete hd hrest
    obtain ⟨c, v, rfl, hc⟩ := hd.exists_cons
    rw [List.cons_append] at hread ⊢
    rw [number?, hread]
    · rfl
    · intro after heq
      obtain ⟨rfl, -⟩ := List.cons.inj heq
      cases hc
  | negative hd =>
    simp only [List.cons_append, number?, unsigned?_complete hd hrest, Option.map_some]

theorem number?_sound (h : number? t = some (x, rest)) : ∃ u, Numeral x u ∧ t = u ++ rest := by
  unfold number? at h
  split at h
  all_goals
    obtain ⟨⟨d, after⟩, hread, heq⟩ := Option.map_eq_some_iff.mp h
    obtain ⟨rfl, rfl⟩ := Prod.mk.inj heq
    obtain ⟨u, hu, rfl⟩ := unsigned?_sound hread
  · exact ⟨_, .negative hu, rfl⟩
  · exact ⟨u, .positive hu, rfl⟩

end KeypadCalculator.Json
