import KeypadCalculator.Arguments
import KeypadCalculator.Report
import KeypadCalculator.Session
import KeypadCalculator.Settings.Toml

/-!
The command-line program as a function of its arguments, its input and what stands in the place of
its settings file.
-/

namespace KeypadCalculator

/-- What stands in the place of the settings file. The place is blocked when something other than a
directory stands where the directory of the file would be. -/
inductive SettingsFile where
  | missing
  | contents (bytes : List UInt8)
  | directory
  | blocked
  deriving DecidableEq

namespace SystemError

/-- What the system says of a file that is not there. -/
def notFound : Text := "No such file or directory (os error 2)".toList

def notDirectory : Text := "Not a directory (os error 20)".toList

def isDirectory : Text := "Is a directory (os error 21)".toList

end SystemError

/-- Why settings were not read, in the words of the system or of the reader of TOML. -/
inductive ReadError where
  | unreadable {why : Text}
  | malformed {why : Text}
  deriving DecidableEq

def ReadError.message : ReadError → Text
  | @unreadable why => "Failed to read config file: ".toList ++ why
  | @malformed why => "Failed to parse config: ".toList ++ why

inductive SaveError where
  | noDirectory
  | failed (why : Text)
  deriving DecidableEq

namespace SaveError

def message : SaveError → Text
  | noDirectory => "Config directory not found".toList
  | failed why => "Failed to save config: ".toList ++ why

def cause? : SaveError → Option Text
  | noDirectory => none
  | failed why => some why

end SaveError

/-- What comes of writing a text to the settings file. A write that fails may leave anything. -/
inductive WriteResult where
  | written
  | failed (why : SaveError) (left : SettingsFile)
  deriving DecidableEq

/-- What comes of a write that only the place itself can keep from succeeding. -/
def SettingsFile.write (file : SettingsFile) (_ : Text) : WriteResult :=
  match file with
  | blocked => .failed (.failed SystemError.notDirectory) blocked
  | directory => .failed (.failed SystemError.isDirectory) directory
  | _ => .written

/-- What a run does not decide itself: what comes of a write, which may fail in every place, and the
words for a text that is no TOML for settings. -/
structure Host where
  write : SettingsFile → Text → WriteResult := SettingsFile.write
  explain : Text → Text := fun _ => "not a table of settings".toList

namespace SettingsFile

/-- The text in the file, or why the system does not give it. -/
def text : SettingsFile → Except Text Text
  | missing => .error SystemError.notFound
  | blocked => .error SystemError.notDirectory
  | directory => .error SystemError.isDirectory
  | contents bytes =>
    match Text.ofBytes? bytes with
    | none => .error Session.Fault.notUtf8.message
    | some t => .ok t

def read (file : SettingsFile) (host : Host := {}) : Except ReadError Settings :=
  match file.text with
  | .error why => .error (@ReadError.unreadable why)
  | .ok t =>
    match Settings.ofToml? t with
    | none => .error (@ReadError.malformed (host.explain t))
    | some settings => .ok settings

/-- Whether a file is there to be read. -/
def isPresent : SettingsFile → Bool
  | contents _ => true
  | directory => true
  | _ => false

end SettingsFile

/-- What the program says beside its output. -/
inductive Notice where
  | ignoredSettings (why : ReadError)
  | warning (w : Warning)
  | saved
  | error (message : Text)
  | saveError (why : SaveError)
  deriving DecidableEq

/-- The lines of a notice, with the path of the settings file. -/
def Notice.text (path : Text) : Notice → Text
  | ignoredSettings why =>
    " WARN Failed to load config file at \"".toList ++ path ++ "\": ".toList ++ why.message ++
      ", using defaults\n".toList
  | warning w =>
    " WARN Config validation: ".toList ++ w.field ++ " - ".toList ++ w.message ++ ['\n']
  | saved => "Saved to ".toList ++ path ++ ['\n']
  | error message => "Error: ".toList ++ message ++ ['\n']
  | saveError why =>
    let cause :=
      match why.cause? with
      | some cause => "\n\nCaused by:\n    ".toList ++ cause
      | none => []
    "Error: ".toList ++ why.message ++ cause ++ ['\n']

structure Outcome where
  code : Nat
  output : Text
  notices : List Notice
  file : SettingsFile
  deriving DecidableEq

namespace Program

/-- The settings in the file, or the defaults with a notice if the file is there but of no use. -/
def load (file : SettingsFile) (host : Host := {}) : Settings × List Notice :=
  if file.isPresent then
    match file.read host with
    | .ok settings => (settings, [])
    | .error why => ({}, [.ignoredSettings why])
  else ({}, [])

/-- The settings that a run goes by, and what there is to say about them. -/
def effective (file : SettingsFile) (precision? : Option UInt32) (host : Host := {}) :
    Settings × List Notice :=
  let (loaded, notices) := load file host
  let settings := loaded.withPrecision? precision?
  (settings, notices ++ settings.warnings.map .warning)

def evaluate (s : Settings) (words : List Text) (json : Bool) (file : SettingsFile) : Outcome :=
  let report := Report.ofExpression ([' '].intercalate words) s.precision.toNat
  let output := (if json then report.json else report.display) ++ ['\n']
  match report.error with
  | none => ⟨0, output, [], file⟩
  | some message => ⟨1, output, [.error message], file⟩

def interact (s : Settings) (input : List UInt8) (file : SettingsFile) : Outcome :=
  let transcript := Session.run s input
  match transcript.fault with
  | none => ⟨0, transcript.output, [], file⟩
  | some why => ⟨1, transcript.output, [.error why.message], file⟩

/-- Shows the settings, and saves just what it shows. -/
def showSettings (s : Settings) (save : Bool) (file : SettingsFile) (host : Host := {}) : Outcome :=
  if save then
    match host.write file s.toToml with
    | .written => ⟨0, s.toToml, [.saved], .contents s.toToml.toBytes⟩
    | .failed why left => ⟨1, s.toToml, [.saveError why], left⟩
  else ⟨0, s.toToml, [], file⟩

/-- A command is to start a session when none is given. -/
def perform (s : Settings) (command : Option Command) (input : List UInt8) (file : SettingsFile)
    (host : Host := {}) : Outcome :=
  match command with
  | some (.evaluate words json) => evaluate s words json file
  | some .keypad => ⟨0, Keypad.picture, [], file⟩
  | some (.settings save) => showSettings s save file host
  | some .interact => interact s input file
  | none => interact s input file

def run (args : List Text) (input : List UInt8) (file : SettingsFile) (host : Host := {}) :
    Except UsageError Outcome :=
  match Arguments.parse args with
  | .error e => .error e
  | .ok invocation =>
    let (settings, notices) := effective file invocation.precision host
    let outcome := perform settings invocation.command input file host
    .ok { outcome with notices := notices ++ outcome.notices }

end Program

end KeypadCalculator
