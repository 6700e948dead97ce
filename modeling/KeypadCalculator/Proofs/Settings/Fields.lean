import KeypadCalculator.Proofs.Settings.RoundTrip

/-!
Settings are read from a document field by field. Each field comes from its own key alone, so the
order of the lines and keys that name no field do not matter.
-/

namespace KeypadCalculator.Settings

open Toml

variable {α : Type} {key text text' : Text} {v : Value} {entries entries' : Table}

theorem lookup_eq_some_iff_mem (hdistinct : (entries.map Prod.fst).Nodup) :
    entries.lookup key = some v ↔ (key, v) ∈ entries := by
  induction entries with
  | nil => simp
  | cons e entries ih =>
    obtain ⟨k, u⟩ := e
    rw [List.map_cons, List.nodup_cons] at hdistinct
    by_cases hk : key = k
    · subst hk
      rw [List.lookup_cons_self, List.mem_cons, Option.some.injEq, Prod.mk.injEq]
      constructor
      · rintro rfl
        exact .inl ⟨rfl, rfl⟩
      · rintro (⟨-, rfl⟩ | hmem)
        · rfl
        · exact absurd (List.mem_map_of_mem hmem) hdistinct.1
    · have hbeq : (key == k) = false := beq_eq_false_iff_ne.mpr hk
      rw [List.lookup_cons, hbeq, ih hdistinct.2, List.mem_cons, Prod.mk.injEq]
      simp [hk]

theorem lookup_eq_none_iff_not_mem : entries.lookup key = none ↔ key ∉ entries.map Prod.fst := by
  rw [List.lookup_eq_none_iff]
  constructor
  · intro h hmem
    obtain ⟨e, he, rfl⟩ := List.mem_map.mp hmem
    simpa using h e he
  · rintro h e he
    rw [bne_iff_ne]
    rintro rfl
    exact h (List.mem_map_of_mem he)

/-- A field is what its key holds, or its default where the key is missing. -/
def Field (entries : Table) (key : Text) (value : α → Value) (default x : α) : Prop :=
  (key, value x) ∈ entries ∨ key ∉ entries.map Prod.fst ∧ x = default

section Field

variable {value : α → Value} {default x : α}

/-- A reader of the values that a field may have reads the field. -/
theorem field_iff {read? : Value → Option α} (hread : ∀ v x, read? v = some x ↔ v = value x)
    (hdistinct : (entries.map Prod.fst).Nodup) :
    (entries.lookup key).elim (some default) read? = some x ↔
      Field entries key value default x := by
  unfold Field
  rw [← lookup_eq_some_iff_mem hdistinct, ← lookup_eq_none_iff_not_mem]
  cases hlookup : entries.lookup key with
  | none => simp [eq_comm]
  | some v => simp [hread]

/-- There is a field unless its key holds a value of another kind. -/
theorem exists_field_iff (hdistinct : (entries.map Prod.fst).Nodup) :
    (∃ x, Field entries key value default x) ↔
      ∀ v, (key, v) ∈ entries → ∃ x, v = value x := by
  simp only [Field, ← lookup_eq_some_iff_mem hdistinct, ← lookup_eq_none_iff_not_mem]
  cases hlookup : entries.lookup key with
  | none => simp
  | some v => simp

theorem field_congr (h : ∀ v, (key, v) ∈ entries ↔ (key, v) ∈ entries') :
    Field entries key value default x ↔ Field entries' key value default x := by
  have hkey : key ∈ entries.map Prod.fst ↔ key ∈ entries'.map Prod.fst := by
    simp [h]
  rw [Field, Field, h, hkey]

end Field

/-- Each field is what its key holds, or its default. -/
structure Takes (entries : Table) (s : Settings) : Prop where
  precision : Field entries precisionKey (fun p : UInt32 => .integer p.toNat) 12 s.precision
  prompt : Field entries promptKey .text ['>', ' '] s.prompt
  echo : Field entries echoKey .boolean false s.echoExpression

/-- The keys of fields hold values of the right kinds. -/
structure Typed (entries : Table) : Prop where
  precision : ∀ v, (precisionKey, v) ∈ entries → ∃ z, v = .integer z ∧ 0 ≤ z ∧ z ≤ 4294967295
  prompt : ∀ v, (promptKey, v) ∈ entries → ∃ t, v = .text t
  echo : ∀ v, (echoKey, v) ∈ entries → ∃ b, v = .boolean b

def isField (e : Text × Value) : Bool :=
  [precisionKey, promptKey, echoKey].contains e.1

/-- An integer in the range of a precision is one. -/
theorem exists_precision_iff :
    (∃ p : UInt32, v = .integer p.toNat) ↔ ∃ z, v = .integer z ∧ 0 ≤ z ∧ z ≤ 4294967295 := by
  constructor
  · rintro ⟨p, rfl⟩
    have hp := p.toNat_lt
    exact ⟨p.toNat, rfl, by omega, by omega⟩
  · rintro ⟨z, rfl, hlow, hhigh⟩
    refine ⟨.ofNat z.toNat, ?_⟩
    have hsize : z.toNat < UInt32.size := by
      rw [UInt32.size]
      omega
    rw [UInt32.toNat_ofNat_of_lt' hsize, Int.toNat_of_nonneg hlow]

theorem exists_takes_iff (hdistinct : (entries.map Prod.fst).Nodup) :
    (∃ s, Takes entries s) ↔ Typed entries := by
  constructor
  · rintro ⟨s, htakes⟩
    refine ⟨fun v hv => ?_, ?_, ?_⟩
    · exact exists_precision_iff.mp ((exists_field_iff hdistinct).mp ⟨_, htakes.precision⟩ v hv)
    · exact (exists_field_iff hdistinct).mp ⟨_, htakes.prompt⟩
    · exact (exists_field_iff hdistinct).mp ⟨_, htakes.echo⟩
  · intro htyped
    have hprecision v hv := exists_precision_iff.mpr (htyped.precision v hv)
    obtain ⟨precision, hprecision⟩ := (exists_field_iff hdistinct).mpr hprecision
    obtain ⟨prompt, hprompt⟩ := (exists_field_iff hdistinct).mpr htyped.prompt
    obtain ⟨echo, hecho⟩ := (exists_field_iff hdistinct).mpr htyped.echo
    exact ⟨⟨precision, prompt, echo⟩, hprecision, hprompt, hecho⟩

theorem takes_congr (h : (entries.filter isField).Perm (entries'.filter isField)) (s : Settings) :
    Takes entries s ↔ Takes entries' s := by
  have hmem (key : Text) (hkey : key ∈ [precisionKey, promptKey, echoKey]) (v : Value) :
      (key, v) ∈ entries ↔ (key, v) ∈ entries' := by
    have hfield : isField (key, v) = true := List.contains_iff_mem.mpr hkey
    have hfilter := h.mem_iff (a := (key, v))
    simpa only [List.mem_filter, hfield, and_true] using hfilter
  have hprecision := hmem precisionKey (by simp)
  have hprompt := hmem promptKey (by simp)
  have hecho := hmem echoKey (by simp)
  constructor
  · rintro ⟨h₁, h₂, h₃⟩
    exact ⟨(field_congr hprecision).mp h₁, (field_congr hprompt).mp h₂, (field_congr hecho).mp h₃⟩
  · rintro ⟨h₁, h₂, h₃⟩
    exact ⟨(field_congr hprecision).mpr h₁, (field_congr hprompt).mpr h₂,
      (field_congr hecho).mpr h₃⟩

def precisionOf? : Value → Option UInt32
  | .integer n => if 0 ≤ n ∧ n < UInt32.size then some (.ofNat n.toNat) else none
  | _ => none

def textOf? : Value → Option Text
  | .text t => some t
  | _ => none

def booleanOf? : Value → Option Bool
  | .boolean b => some b
  | _ => none

theorem precisionOf?_eq_some_iff (v : Value) (p : UInt32) :
    precisionOf? v = some p ↔ v = .integer p.toNat := by
  have hp : p.toNat < UInt32.size := p.toNat_lt_size
  cases v with
  | integer n =>
    rw [precisionOf?, Value.integer.injEq]
    split_ifs with hn
    · rw [Option.some.injEq, ← UInt32.toNat_inj, UInt32.toNat_ofNat_of_lt' (by omega)]
      omega
    · constructor
      · nofun
      · rintro rfl
        exact absurd ⟨by omega, by exact_mod_cast hp⟩ hn
  | _ => simp [precisionOf?]

theorem textOf?_eq_some_iff (v : Value) (t : Text) : textOf? v = some t ↔ v = .text t := by
  cases v <;> simp [textOf?]

theorem booleanOf?_eq_some_iff (v : Value) (b : Bool) :
    booleanOf? v = some b ↔ v = .boolean b := by
  cases v <;> simp [booleanOf?]

theorem precision?_eq_elim (t : Table) :
    precision? t = (t.lookup precisionKey).elim (some 12) precisionOf? := by
  rw [precision?]
  cases t.lookup precisionKey with
  | none => rfl
  | some v => cases v <;> rfl

theorem prompt?_eq_elim (t : Table) :
    prompt? t = (t.lookup promptKey).elim (some ['>', ' ']) textOf? := by
  rw [prompt?]
  cases t.lookup promptKey with
  | none => rfl
  | some v => cases v <;> rfl

theorem echo?_eq_elim (t : Table) :
    echo? t = (t.lookup echoKey).elim (some false) booleanOf? := by
  rw [echo?]
  cases t.lookup echoKey with
  | none => rfl
  | some v => cases v <;> rfl

theorem ofTable?_eq_some_iff (hdistinct : (entries.map Prod.fst).Nodup) {s : Settings} :
    ofTable? entries = some s ↔ Takes entries s := by
  obtain ⟨precision, prompt, echo⟩ := s
  have hsplit : ofTable? entries = some ⟨precision, prompt, echo⟩ ↔
      precision? entries = some precision ∧ prompt? entries = some prompt ∧
        echo? entries = some echo := by
    unfold ofTable?
    split
    · next p t b hp ht hb => simp [hp, ht, hb]
    · next hnone =>
      constructor
      · nofun
      · rintro ⟨hp, ht, hb⟩
        exact absurd hb (hnone _ _ _ hp ht)
  rw [hsplit, precision?_eq_elim, prompt?_eq_elim, echo?_eq_elim,
    field_iff precisionOf?_eq_some_iff hdistinct, field_iff textOf?_eq_some_iff hdistinct,
    field_iff booleanOf?_eq_some_iff hdistinct]
  constructor
  · rintro ⟨hprecision, hprompt, hecho⟩
    exact ⟨hprecision, hprompt, hecho⟩
  · rintro ⟨hprecision, hprompt, hecho⟩
    exact ⟨hprecision, hprompt, hecho⟩

theorem ofToml?_eq_some_iff (h : Entries entries text) (hdistinct : (entries.map Prod.fst).Nodup)
    (s : Settings) :
    ofToml? text = some s ↔ (∀ e ∈ entries, e.2.Fits) ∧ Takes entries s := by
  rw [ofToml?, h.parse? hdistinct]
  split_ifs with hfits
  · rw [Option.bind_some, ofTable?_eq_some_iff hdistinct]
    exact (and_iff_right hfits).symm
  · rw [Option.bind_none]
    constructor
    · intro hnone
      cases hnone
    · exact fun hs => absurd hs.1 hfits

/-- Entries whose integers all fit are read exactly if the keys of fields hold values of the right
kinds, and then each field is what its key holds, or its default. Documents with the same entries
for fields are read alike, in whatever order and among whatever others these stand. An integer that
does not fit spoils its document. -/
theorem ofToml?_entries (h : Entries entries text) (hdistinct : (entries.map Prod.fst).Nodup) :
    ((ofToml? text).isSome ↔ (∀ e ∈ entries, e.2.Fits) ∧ Typed entries) ∧
      (∀ s, ofToml? text = some s ↔ (∀ e ∈ entries, e.2.Fits) ∧ Takes entries s) ∧
      ∀ entries' text', Entries entries' text' → (entries'.map Prod.fst).Nodup →
        ((∀ e ∈ entries, e.2.Fits) ↔ ∀ e ∈ entries', e.2.Fits) →
        (entries.filter isField).Perm (entries'.filter isField) →
          ofToml? text' = ofToml? text := by
  refine ⟨?_, ofToml?_eq_some_iff h hdistinct, ?_⟩
  · rw [Option.isSome_iff_exists, ← exists_takes_iff hdistinct, ← exists_and_left]
    exact exists_congr (ofToml?_eq_some_iff h hdistinct)
  · intro entries' text' h' hdistinct' hfits hperm
    apply Option.ext
    intro s
    rw [ofToml?_eq_some_iff h hdistinct, ofToml?_eq_some_iff h' hdistinct', hfits,
      takes_congr hperm]

/-- Other keys stand among the fields, whose values are spelled in two ways. -/
theorem ofToml?_entries_reordered :
    let entries : Table := [("theme".toList, .text "dark".toList), (precisionKey, .integer 8),
      (echoKey, .boolean true)]
    let entries' : Table := [(echoKey, .boolean true), ("retries".toList, .integer 1000),
      (precisionKey, .integer 8)]
    let text := "theme = 'dark'\r\nprecision = 0b1_000\necho_expression=true".toList
    let text' := "echo_expression = true\nretries = +1_000\nprecision = 8\n".toList
    (Entries entries text ∧ (entries.map Prod.fst).Nodup ∧ ∀ e ∈ entries, e.2.Fits) ∧
      (Entries entries' text' ∧ (entries'.map Prod.fst).Nodup ∧ ∀ e ∈ entries', e.2.Fits) ∧
      ofToml? text = some ⟨8, ['>', ' '], true⟩ ∧ ofToml? text' = ofToml? text := by
  intro entries entries' text text'
  have hblank : ∀ c ∈ [' '], isSpace c = true := List.forall_mem_singleton.mpr rfl
  have hnone : ∀ c ∈ ([] : Text), isSpace c = true := nofun
  have hprecisionKey : IsBareKey precisionKey := ⟨by decide, by decide⟩
  have hechoKey : IsBareKey echoKey := ⟨by decide, by decide⟩
  have hone {base : ℕ} (h : 1 < base) : IsDigit base 1 '1' := ⟨h, .inl rfl⟩
  have hzero {base : ℕ} (h : 0 < base) : IsDigit base 0 '0' := ⟨h, .inl rfl⟩
  have hthousand (base : ℕ) (h : 1 < base) : Grouped base [1, 0, 0, 0] "1_000".toList :=
    .underscore (hone h) (.next (hzero (by omega)) (.next (hzero (by omega))
      (.single (hzero (by omega)))))
  have htext : Entries entries text := by
    have htheme : Scalar (.text "dark".toList) "'dark'".toList :=
      .text (.literal (by simp [isPlain]))
    have hprecision : Scalar (.integer 8) "0b1_000".toList :=
      .integer (.based (by decide) (hthousand 2 (by decide)))
    exact .line (.intro ⟨by decide, by decide⟩ hblank hblank htheme) .carriageReturn
      (.line (.intro hprecisionKey hblank hblank hprecision) .lineFeed
        (.last (.intro hechoKey hnone hnone .true)))
  have htext' : Entries entries' text' := by
    have hretries : Scalar (.integer 1000) "+1_000".toList :=
      .integer (.positive (.intro (hthousand 10 (by decide)) (by decide)))
    have hprecision : Scalar (.integer 8) "8".toList :=
      .integer (integer_numeral 8)
    exact .line (.intro hechoKey hblank hblank .true) .lineFeed
      (.line (.intro ⟨by decide, by decide⟩ hblank hblank hretries) .lineFeed
        (.line (.intro hprecisionKey hblank hblank hprecision) .lineFeed .nil))
  have hdistinct : (entries.map Prod.fst).Nodup := by decide
  have hdistinct' : (entries'.map Prod.fst).Nodup := by decide
  have hfits : ∀ e ∈ entries, e.2.Fits := by decide
  have hfits' : ∀ e ∈ entries', e.2.Fits := by decide
  have htakes : Takes entries ⟨8, ['>', ' '], true⟩ :=
    ⟨.inl (by simp [entries]), .inr ⟨by decide, rfl⟩, .inl (by simp [entries])⟩
  have hperm : (entries.filter isField).Perm (entries'.filter isField) := .swap _ _ _
  obtain ⟨-, hresult, hsame⟩ := ofToml?_entries htext hdistinct
  exact ⟨⟨htext, hdistinct, hfits⟩, ⟨htext', hdistinct', hfits'⟩, (hresult _).mpr ⟨hfits, htakes⟩,
    hsame entries' text' htext' hdistinct' (iff_of_true hfits hfits') hperm⟩

/-- One bit more than fits, under a key that names no field, spoils a document without fields. -/
theorem ofToml?_too_large :
    let entries : Table := [("a".toList, .integer (2 ^ 128))]
    let text := "a = 340282366920938463463374607431768211456\n".toList
    (Entries entries text ∧ (entries.map Prod.fst).Nodup ∧ Typed entries) ∧
      ofToml? text = none ∧ ofToml? [] = some {} := by
  intro entries text
  have hinteger : Integer (2 ^ 128) "340282366920938463463374607431768211456".toList := by
    have hnumeral : Text.numeral (2 ^ 128) = "340282366920938463463374607431768211456".toList := by
      decide +kernel
    rw [← hnumeral]
    exact_mod_cast integer_numeral (2 ^ 128)
  have hblank : ∀ c ∈ [' '], isSpace c = true := List.forall_mem_singleton.mpr rfl
  have htext : Entries entries text :=
    .line (.intro ⟨by decide, by decide⟩ hblank hblank (.integer hinteger)) .lineFeed .nil
  have hdistinct : (entries.map Prod.fst).Nodup := by decide
  have hothers : ∀ key ∈ [precisionKey, promptKey, echoKey], key ∉ entries.map Prod.fst := by
    decide
  have habsent {key : Text} (hkey : key ∈ [precisionKey, promptKey, echoKey]) {v : Value}
      (hv : (key, v) ∈ entries) : False := hothers key hkey (List.mem_map_of_mem hv)
  have htyped : Typed entries :=
    ⟨fun v hv => (habsent (by simp) hv).elim, fun v hv => (habsent (by simp) hv).elim,
      fun v hv => (habsent (by simp) hv).elim⟩
  have hfits : ¬ ∀ e ∈ entries, e.2.Fits := by decide
  refine ⟨⟨htext, hdistinct, htyped⟩, ?_, ?_⟩
  · rw [ofToml?, htext.parse? hdistinct, if_neg hfits, Option.bind_none]
  · rw [ofToml?, Entries.nil.parse? .nil, if_pos (by simp), Option.bind_some]
    rfl

end KeypadCalculator.Settings
