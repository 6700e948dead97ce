import KeypadCalculator.Settings.Toml
import KeypadCalculator.Proofs.Binary64.Written
import KeypadCalculator.Proofs.Toml.Entries
import KeypadCalculator.Proofs.Toml.Quoted

/-!
Settings that are written as TOML are read back. What is written is a document of entries that all
fit.
-/

namespace KeypadCalculator.Toml

variable {c : Char} {t : Text} {entries : Table}

/-- What a decimal digit counts. -/
def digitValue (c : Char) : ℕ := c.toNat - '0'.toNat

theorem isDigit_digitValue (h : c.isDigit = true) : IsDigit 10 (digitValue c) c := by
  have hlow : 48 ≤ c.toNat := by simpa using (Char.isDigit_iff_toNat.mp h).1
  have hhigh : c.toNat ≤ 57 := by simpa using (Char.isDigit_iff_toNat.mp h).2
  have hzero : '0'.toNat = 48 := rfl
  refine ⟨by rw [digitValue, hzero]; omega, .inl (Char.toNat_inj.mp ?_)⟩
  rw [Nat.toNat_digitChar_of_lt_ten (by rw [digitValue, hzero]; omega), digitValue, hzero]
  omega

theorem grouped_of_digits (hdigits : ∀ c ∈ t, c.isDigit = true) (hne : t ≠ []) :
    Grouped 10 (t.map digitValue) t := by
  induction t with
  | nil => exact absurd rfl hne
  | cons c t ih =>
    obtain ⟨hc, hdigits⟩ := List.forall_mem_cons.mp hdigits
    by_cases hnil : t = []
    · subst hnil
      exact .single (isDigit_digitValue hc)
    · exact .next (isDigit_digitValue hc) (ih hdigits hnil)

theorem natural_digitsValue (h : IsWhole t) : Natural (Text.digitsValue t) t := by
  have hvalue : Text.digitsValue t = number 10 (t.map digitValue) := by
    refine digitsValue_eq_number (List.forall₂_map_left_iff.mpr ?_)
    exact List.forall₂_same.mpr fun c hc => isDigit_digitValue (h.digits c hc)
  rw [hvalue]
  refine .intro (grouped_of_digits h.digits h.nonempty) fun hzero => ?_
  cases t with
  | nil => cases hzero
  | cons c t =>
    -- The only digit that counts nothing is the zero.
    have hc := (isDigit_digitValue (h.digits c List.mem_cons_self)).2
    rw [Option.some.inj hzero] at hc
    obtain rfl : c = '0' := by
      rcases hc with hc | hc <;> exact hc
    rw [h.lead rfl]
    rfl

theorem integer_numeral (n : ℕ) : Integer n (Text.numeral n) := by
  have hnatural := natural_digitsValue (isWhole_numeral n)
  rw [Text.digitsValue_numeral] at hnatural
  exact .unsigned hnatural

theorem scalar_boolean (b : Bool) : Scalar (.boolean b) (Settings.boolean b) := by
  cases b
  · exact .false
  · exact .true

/-- A document of entries that all fit. -/
structure Lines (entries : Table) (t : Text) : Prop where
  written : Entries entries t
  fits : ∀ e ∈ entries, e.2.Fits

theorem Lines.parse? (h : Lines entries t) (hdistinct : (entries.map Prod.fst).Nodup) :
    parse? t = some entries := by
  rw [h.written.parse? hdistinct, if_pos h.fits]

end KeypadCalculator.Toml

namespace KeypadCalculator.Settings

open Toml

theorem entry_line {key t : Text} {v : Value} (hkey : IsBareKey key) (h : Scalar v t)
    {entries : Table} {rest : Text} (hrest : Entries entries rest) :
    Entries ((key, v) :: entries) (line key t ++ rest) := by
  have hblank : ∀ c ∈ [' '], isSpace c = true := List.forall_mem_singleton.mpr rfl
  have hentry := Entries.line (.intro hkey hblank hblank h) .lineFeed hrest
  simpa [line] using hentry

theorem lines_toToml (s : Settings) :
    Lines [(precisionKey, .integer s.precision.toNat), (promptKey, .text s.prompt),
      (echoKey, .boolean s.echoExpression)] s.toToml := by
  have hprecision : IsBareKey precisionKey := ⟨by decide, by decide⟩
  have hprompt : IsBareKey promptKey := ⟨by decide, by decide⟩
  have hecho : IsBareKey echoKey := ⟨by decide, by decide⟩
  constructor
  · have hentries := entry_line hprecision (.integer (integer_numeral s.precision.toNat))
      (entry_line hprompt (.text (quoted_quote s.prompt))
        (entry_line hecho (scalar_boolean s.echoExpression) .nil))
    simpa [toToml] using hentries
  · have hsize : s.precision.toNat < 2 ^ 128 := s.precision.toNat_lt_size.trans (by decide)
    have hfits : Fits s.precision.toNat := by
      constructor
      · omega
      · exact_mod_cast hsize
    simpa [Value.Fits] using hfits

/-- What is written is read back, whatever the prompt. -/
theorem ofToml?_toToml (s : Settings) : ofToml? s.toToml = some s := by
  have hdistinct : [precisionKey, promptKey, echoKey].Nodup := by decide
  have hsize : (s.precision.toNat : Int) < UInt32.size := by
    exact_mod_cast s.precision.toNat_lt_size
  rw [ofToml?, (lines_toToml s).parse? hdistinct, Option.bind_some]
  have hprecision : precision? [(precisionKey, .integer s.precision.toNat),
      (promptKey, .text s.prompt), (echoKey, .boolean s.echoExpression)] = some s.precision := by
    rw [precision?, List.lookup_cons_self]
    simp only
    rw [if_pos ⟨by simp, hsize⟩]
    simp
  rw [ofTable?, hprecision]
  rfl

end KeypadCalculator.Settings
