import KeypadCalculator.Program

/-!
The program on real files and streams. Everything it decides, it decides elsewhere; a session is
answered line by line while its input arrives.
-/

namespace KeypadCalculator.Main

/-- Where the settings file belongs: below the directory that the user set for such files, or else
below the usual one. Without either there is no place for it. -/
def settingsDirectory? : IO (Option String) := do
  match ← IO.getEnv "XDG_CONFIG_HOME" with
  | some base => if base.startsWith "/" then return some (base ++ "/zcalc") else usual
  | none => usual
where
  usual : IO (Option String) := return (← IO.getEnv "HOME").map (· ++ "/.config/zcalc")

/-- The path of the settings file in its directory. -/
def settingsPath (directory : String) : String := directory ++ "/config.toml"

def readBytes? (path : String) : IO (Option (List UInt8)) := do
  try
    return some (← IO.FS.readBinFile path).toList
  catch _ => return none

def isThere (path : String) : IO Bool := do
  try
    let _ ← IO.FS.Handle.mk path .read
    return true
  catch _ => return false

def findSettings (directory? : Option String) : IO SettingsFile := do
  let some directory := directory? | return .missing
  let path := settingsPath directory
  match ← readBytes? path with
  | some bytes => return .contents bytes
  | none =>
    if ← isThere path then return .directory
    else if (← readBytes? directory).isSome then return .blocked
    else return .missing

/-- Writes the settings file, and sees what became of it. -/
def writeSettings (directory? : Option String) (t : Text) : IO WriteResult := do
  let some directory := directory? | return .failed .noDirectory .missing
  try
    unless ← isThere directory do IO.FS.createDirAll directory
    IO.FS.writeBinFile (settingsPath directory) t.toBytes.toByteArray
    return .written
  catch why =>
    return .failed (.failed (toString why).toList) (← findSettings directory?)

def say (path : String) (notices : List Notice) : IO Unit := do
  let stderr ← IO.getStderr
  for notice in notices do
    stderr.putStr (String.ofList (notice.text path.toList))

def put (t : Text) : IO Unit := do
  let stdout ← IO.getStdout
  stdout.putStr (String.ofList t)
  stdout.flush

/-- Answers the lines of the input as they arrive, after bytes that have arrived but are no line
yet. -/
partial def converse (s : Settings) (c : Calculator) (arrived : List UInt8) (ended : Bool) :
    IO (List Notice) := do
  if ended || arrived.contains Session.newline then
    match Session.nextLine? arrived with
    | none => return []
    | some (line, rest) =>
      match Session.turn s c line with
      | .fault why => return [.error why.message]
      | .quit => return []
      | .reply output after =>
        put output
        converse s after rest ended
  else
    let bytes ← (← IO.getStdin).read 4096
    converse s c (arrived ++ bytes.toList) bytes.isEmpty

def interact (s : Settings) : IO (List Notice) := do
  put s.prompt
  converse s (Session.start s) [] false

def perform (directory? : Option String) (invocation : Invocation) : IO UInt32 := do
  let file ← findSettings directory?
  let path := settingsPath (directory?.getD "")
  let (settings, notices) := Program.effective file invocation.precision
  say path notices
  match invocation.command.getD .interact with
  | .interact =>
    let notices ← interact settings
    say path notices
    return if notices.isEmpty then 0 else 1
  | command =>
    let result ←
      if command = .settings true then writeSettings directory? settings.toToml else pure .written
    let outcome := Program.perform settings (some command) [] file { write := fun _ _ => result }
    put outcome.output
    say path outcome.notices
    return outcome.code.toUInt32

def usage : String :=
  "usage: [--precision N] [eval [--json] WORD... | repl | keypad | config [--save]]"

end KeypadCalculator.Main

open KeypadCalculator

def main (args : List String) : IO UInt32 := do
  match Arguments.parse (args.map String.toList) with
  | .error .help =>
    IO.println Main.usage
    return 0
  | .error _ =>
    IO.eprintln Main.usage
    return 2
  | .ok invocation => Main.perform (← Main.settingsDirectory?) invocation
