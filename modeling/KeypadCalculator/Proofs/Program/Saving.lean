import KeypadCalculator.Program
import KeypadCalculator.Proofs.Settings.RoundTrip

/-!
What a run leaves in the place of the settings file. Only a run that saves writes to it, it writes
what it shows, and the runs behind it go by just these settings.
-/

namespace KeypadCalculator

namespace Host

/-- A write that fails changes nothing. -/
def FailsCleanly (host : Host) : Prop :=
  ∀ file t why left, host.write file t = .failed why left → left = file

theorem failsCleanly_usual : FailsCleanly {} := by
  intro file t why left hwrite
  cases file <;> cases hwrite <;> rfl

end Host

theorem SettingsFile.read_toToml (s : Settings) (host : Host) :
    read (.contents s.toToml.toBytes) host = .ok s := by
  simp only [read, text, Text.ofBytes?_toBytes, Settings.ofToml?_toToml]

namespace Program

open SettingsFile

variable {args : List Text} {precision? : Option UInt32} {command : Option Command}
  {input : List UInt8} {file left : SettingsFile} {host : Host} {outcome : Outcome} {s : Settings}
  {why : SaveError}

/-- The arguments ask to save the settings, perhaps with another precision. -/
def Saves (args : List Text) (precision? : Option UInt32) : Prop :=
  Arguments.parse args = .ok ⟨precision?, some (.settings true)⟩

instance (args : List Text) (precision? : Option UInt32) : Decidable (Saves args precision?) :=
  inferInstanceAs (Decidable (_ = _))

/-- What a run is given, apart from the settings file. -/
structure Run where
  args : List Text
  input : List UInt8
  host : Host

namespace Run

/-- What a run leaves in the place of the settings file. Arguments that make no sense end it before it
gets there. -/
def leaves (file : SettingsFile) (r : Run) : SettingsFile :=
  match run r.args r.input file r.host with
  | .ok outcome => outcome.file
  | .error _ => file

/-- The run saves no other precision, and if it saves at all, failing to do so changes nothing. -/
def Spares (r : Run) : Prop :=
  ∀ precision?, Saves r.args precision? → precision? = none ∧ r.host.FailsCleanly

end Run

/-- What one run after the other leaves in the place of the settings file. -/
def leaves (file : SettingsFile) (runs : List Run) : SettingsFile :=
  runs.foldl Run.leaves file

/-- The outcome of a command, with the notices that come before it. -/
def proceed (s : Settings) (notices : List Notice) (command : Option Command)
    (input : List UInt8) (file : SettingsFile) (host : Host) : Outcome :=
  let outcome := perform s command input file host
  { outcome with notices := notices ++ outcome.notices }

/-- The words for what cannot be read make no difference to the settings. -/
theorem effective_fst (file : SettingsFile) (precision? : Option UInt32) (host other : Host) :
    (effective file precision? host).1 = (effective file precision? other).1 := by
  have hload : (load file host).1 = (load file other).1 := by
    simp only [load, SettingsFile.read]
    split
    · cases file.text with
      | error why => rfl
      | ok t =>
        dsimp only
        cases Settings.ofToml? t <;> rfl
    · rfl
  simp only [effective, hload]

theorem effective_toToml (s : Settings) (host : Host) :
    effective (.contents s.toToml.toBytes) none host = (s, s.warnings.map .warning) := by
  simp only [effective, load, isPresent, read_toToml, if_true, Settings.withPrecision?,
    List.nil_append]

theorem run_eq (h : Arguments.parse args = .ok ⟨precision?, command⟩) (input : List UInt8)
    (file : SettingsFile) (host : Host) :
    run args input file host =
      .ok (proceed (effective file precision?).1 (effective file precision? host).2 command input
        file host) := by
  simp only [run, h, proceed, effective_fst file precision? host {}]

theorem showSettings_of_written (h : host.write file s.toToml = .written) :
    showSettings s true file host = ⟨0, s.toToml, [.saved], .contents s.toToml.toBytes⟩ := by
  simp only [showSettings, if_true, h]

theorem showSettings_of_failed (h : host.write file s.toToml = .failed why left) :
    showSettings s true file host = ⟨1, s.toToml, [.saveError why], left⟩ := by
  simp only [showSettings, if_true, h]

theorem evaluate_file (s : Settings) (words : List Text) (json : Bool) (file : SettingsFile) :
    (evaluate s words json file).file = file := by
  simp only [evaluate]
  split <;> rfl

theorem interact_file (s : Settings) (input : List UInt8) (file : SettingsFile) :
    (interact s input file).file = file := by
  simp only [interact]
  split <;> rfl

/-- No other command has a hand on the file. -/
theorem perform_file (hcommand : command ≠ some (.settings true)) (s : Settings)
    (input : List UInt8) (file : SettingsFile) (host : Host) :
    (perform s command input file host).file = file := by
  match command with
  | none => exact interact_file s input file
  | some .interact => exact interact_file s input file
  | some (.evaluate words json) => exact evaluate_file s words json file
  | some .keypad => rfl
  | some (.settings false) => rfl
  | some (.settings true) => exact absurd rfl hcommand

theorem run_file (h : run args input file host = .ok outcome) (hcommand : ∀ p, ¬ Saves args p) :
    outcome.file = file := by
  cases hparse : Arguments.parse args with
  | error why =>
    simp only [run, hparse] at h
    cases h
  | ok invocation =>
    have hrun := run_eq hparse input file host
    rw [h] at hrun
    cases hrun
    apply perform_file
    intro hsettings
    exact hcommand _ (hparse.trans (by rw [← hsettings]))

/-- What a run has done that was asked to save: it has shown the settings it goes by, and it has
succeeded just if writing what it showed did. -/
structure HasSaved (precision? : Option UInt32) (file : SettingsFile) (host : Host)
    (outcome : Outcome) : Prop where
  output : outcome.output = (effective file precision?).1.toToml
  result :
    outcome.code = 0 ∧ host.write file outcome.output = .written ∧
        outcome.file = .contents outcome.output.toBytes ∨
      outcome.code = 1 ∧ ∃ why, host.write file outcome.output = .failed why outcome.file

namespace HasSaved

theorem code_eq_zero_iff (h : HasSaved precision? file host outcome) :
    outcome.code = 0 ↔ host.write file outcome.output = .written := by
  rcases h.result with ⟨hcode, hwrite, -⟩ | ⟨hcode, why, hwrite⟩
  · exact iff_of_true hcode hwrite
  · rw [hcode, hwrite]
    exact iff_of_false Nat.one_ne_zero nofun

theorem file_of_succeeded (h : HasSaved precision? file host outcome) (hcode : outcome.code = 0) :
    outcome.file = .contents outcome.output.toBytes := by
  rcases h.result with ⟨-, -, hfile⟩ | ⟨hfailed, -⟩
  · exact hfile
  · omega

theorem file_of_failed (h : HasSaved precision? file host outcome) (hcode : outcome.code ≠ 0)
    (hhost : host.FailsCleanly) : outcome.file = file := by
  rcases h.result with ⟨hsucceeded, -⟩ | ⟨-, why, hwrite⟩
  · exact absurd hsucceeded hcode
  · exact hhost _ _ _ _ hwrite

/-- Saving the settings that are there changes nothing. -/
theorem again (h : HasSaved none (.contents s.toToml.toBytes) host outcome) :
    outcome.output = s.toToml ∧
      (outcome.code = 0 ∨ host.FailsCleanly → outcome.file = .contents s.toToml.toBytes) := by
  have houtput : outcome.output = s.toToml := by rw [h.output, effective_toToml]
  have hsame : outcome.code = 0 → outcome.file = .contents s.toToml.toBytes := by
    intro hcode
    rw [h.file_of_succeeded hcode, houtput]
  refine ⟨houtput, ?_⟩
  rintro (hcode | hhost)
  · exact hsame hcode
  · by_cases hcode : outcome.code = 0
    · exact hsame hcode
    · exact h.file_of_failed hcode hhost

end HasSaved

theorem exists_run_saves (h : Saves args precision?) (input : List UInt8) (file : SettingsFile)
    (host : Host) :
    ∃ outcome, run args input file host = .ok outcome ∧
      HasSaved precision? file host outcome := by
  refine ⟨_, run_eq h input file host, ?_⟩
  cases hwrite : host.write file (effective file precision?).1.toToml with
  | written =>
    rw [proceed, perform, showSettings_of_written hwrite]
    exact ⟨rfl, Or.inl ⟨rfl, hwrite, rfl⟩⟩
  | failed why left =>
    rw [proceed, perform, showSettings_of_failed hwrite]
    exact ⟨rfl, Or.inr ⟨rfl, why, hwrite⟩⟩

theorem hasSaved_of_run (h : run args input file host = .ok outcome)
    (hsaves : Saves args precision?) : HasSaved precision? file host outcome := by
  obtain ⟨shown, hshown, hsaved⟩ := exists_run_saves hsaves input file host
  rw [h] at hshown
  obtain rfl := Except.ok.inj hshown
  exact hsaved

/-- Settings that are saved are saved as they are, until another precision comes with them. -/
theorem leaves_toToml_step {r : Run} (h : r.Spares) (s : Settings) :
    r.leaves (.contents s.toToml.toBytes) = .contents s.toToml.toBytes := by
  rw [Run.leaves]
  split
  · next outcome hrun =>
    by_cases hsaves : ∃ precision?, Saves r.args precision?
    · obtain ⟨precision?, hsaves⟩ := hsaves
      obtain ⟨rfl, hhost⟩ := h _ hsaves
      exact (hasSaved_of_run hrun hsaves).again.2 (Or.inr hhost)
    · exact run_file hrun (not_exists.mp hsaves)
  · rfl

theorem leaves_toToml (s : Settings) (runs : List Run) (h : ∀ r ∈ runs, r.Spares) :
    leaves (.contents s.toToml.toBytes) runs = .contents s.toToml.toBytes := by
  induction runs with
  | nil => rfl
  | cons r runs ih =>
    simp only [List.mem_cons, forall_eq_or_imp] at h
    rw [leaves, List.foldl_cons, leaves_toToml_step h.1]
    exact ih h.2

/-- What holds of a settings file from which these settings are read. It is left as it is until
another precision is saved or a write does harm, every run that names no precision goes by these
settings, and a run that saves them shows the same text again, whether or not it can write it. -/
structure Persists (s : Settings) (file : SettingsFile) : Prop where
  kept {runs : List Run} : (∀ r ∈ runs, r.Spares) → leaves file runs = file
  read {args : List Text} {command : Option Command} (input : List UInt8) (host : Host) :
    Arguments.parse args = .ok ⟨none, command⟩ →
      run args input file host =
        .ok (proceed s (s.warnings.map .warning) command input file host)
  again {args : List Text} (input : List UInt8) (host : Host) : Saves args none →
    ∃ outcome, run args input file host = .ok outcome ∧ outcome.output = s.toToml ∧
      (outcome.code = 0 ∨ host.FailsCleanly → outcome.file = file)

theorem persists_toToml (s : Settings) : Persists s (.contents s.toToml.toBytes) where
  kept hruns := leaves_toToml s _ hruns
  read input host hparse := by rw [run_eq hparse, effective_toToml, effective_toToml]
  again input host hsaves := by
    obtain ⟨outcome, hrun, hsaved⟩ :=
      exists_run_saves hsaves input (.contents s.toToml.toBytes) host
    exact ⟨outcome, hrun, hsaved.again⟩

/-- A run leaves the settings file as it is unless it saves, and so does a run that fails where a
failing write changes nothing. A run that saves shows the settings it goes by and succeeds just if it
can write what it shows, and what it has written persists. -/
theorem saved_persists (h : run args input file host = .ok outcome) :
    ((∀ precision?, ¬ Saves args precision?) → outcome.file = file) ∧
    (outcome.code ≠ 0 → host.FailsCleanly → outcome.file = file) ∧
    ∀ precision?, Saves args precision? →
      outcome.output = (effective file precision?).1.toToml ∧
      (outcome.code = 0 ↔ host.write file outcome.output = .written) ∧
      (outcome.code = 0 →
        outcome.file = .contents outcome.output.toBytes ∧
        Persists (effective file precision?).1 outcome.file) := by
  refine ⟨run_file h, ?_, ?_⟩
  · intro hcode hhost
    by_cases hsaves : ∃ precision?, Saves args precision?
    · obtain ⟨precision?, hsaves⟩ := hsaves
      exact (hasSaved_of_run h hsaves).file_of_failed hcode hhost
    · exact run_file h (not_exists.mp hsaves)
  · intro precision? hsaves
    have hsaved := hasSaved_of_run h hsaves
    refine ⟨hsaved.output, hsaved.code_eq_zero_iff, fun hcode => ?_⟩
    have hfile := hsaved.file_of_succeeded hcode
    refine ⟨hfile, ?_⟩
    rw [hfile, hsaved.output]
    exact persists_toToml _

/-- Bytes that are no text are no settings: the defaults with the given precision take their place.
Where nothing may be written the bytes stay, and once the settings are saved neither a run that fails
nor one that is denied another save touches them. -/
theorem saved_persists_broken :
    let broken : SettingsFile := .contents [0xFF]
    let save := ["--precision".toList, "3".toList, "config".toList, "--save".toList]
    let again := ["config".toList, "--save".toList]
    let denied := SaveError.failed "Permission denied (os error 13)".toList
    let readOnly : Host := { write := fun file _ => .failed denied file }
    let fail : Run := ⟨["eval".toList, "1/0".toList], [], {}⟩
    let refused : Run := ⟨again, [], readOnly⟩
    let shown : Text := "precision = 3\nprompt = \"> \"\necho_expression = false\n".toList
    Saves save (some 3) ∧ readOnly.FailsCleanly ∧ fail.Spares ∧ refused.Spares ∧
      (∃ outcome, run save [] broken readOnly = .ok outcome ∧ outcome.code ≠ 0 ∧
        outcome.output = shown ∧ outcome.file = broken) ∧
      ∃ outcome, run save [] broken = .ok outcome ∧ outcome.code = 0 ∧ outcome.output = shown ∧
        outcome.file = .contents (Text.toBytes shown) ∧
        ∃ second, run again [] (leaves outcome.file [fail, refused]) = .ok second ∧
          second.output = shown ∧ second.file = outcome.file := by
  intro broken save again denied readOnly fail refused shown
  have hsaves : Saves save (some 3) := by decide +kernel
  have hagain : Saves again none := by decide +kernel
  have hreadOnly : readOnly.FailsCleanly := by
    rintro file t why left hwrite
    cases hwrite
    rfl
  have hfail : fail.Spares := by
    intro precision? hsaves
    have hparse :
        Arguments.parse fail.args = .ok ⟨none, some (.evaluate ["1/0".toList] false)⟩ := by
      decide +kernel
    simp [Saves, hparse] at hsaves
  have hrefused : refused.Spares := by
    intro precision? hsaves
    have hparsed := hagain.symm.trans hsaves
    cases hparsed
    exact ⟨rfl, hreadOnly⟩
  have hshown : (effective broken (some 3)).1.toToml = shown := by decide +kernel
  refine ⟨hsaves, hreadOnly, hfail, hrefused, ?_, ?_⟩
  · obtain ⟨outcome, hrun, -⟩ := exists_run_saves hsaves [] broken readOnly
    obtain ⟨-, hkept, hsaved⟩ := saved_persists hrun
    obtain ⟨houtput, hcode, -⟩ := hsaved _ hsaves
    have hfailed : outcome.code ≠ 0 := mt hcode.mp nofun
    exact ⟨outcome, hrun, hfailed, houtput.trans hshown, hkept hfailed hreadOnly⟩
  · obtain ⟨outcome, hrun, -⟩ := exists_run_saves hsaves [] broken {}
    obtain ⟨-, -, hsaved⟩ := saved_persists hrun
    obtain ⟨houtput, hcode, hpersists⟩ := hsaved _ hsaves
    have hsucceeded : outcome.code = 0 := hcode.mpr rfl
    obtain ⟨hfile, hlater⟩ := hpersists hsucceeded
    obtain ⟨second, hsecond, hsame, hbytes⟩ := hlater.again [] {} hagain
    have hruns : ∀ r ∈ [fail, refused], r.Spares := by simp [hfail, hrefused]
    rw [hshown] at houtput hsame
    rw [houtput] at hfile
    refine ⟨outcome, hrun, hsucceeded, houtput, hfile, second, ?_, hsame,
      hbytes (Or.inr Host.failsCleanly_usual)⟩
    rw [hlater.kept hruns]
    exact hsecond

end Program

end KeypadCalculator
