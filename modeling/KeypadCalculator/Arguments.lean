import KeypadCalculator.Text.Basic

/-!
Command-line arguments. Options come before the command or behind it, but the first word of an
expression ends them: from there on every argument is a word.
-/

namespace KeypadCalculator

inductive Command where
  | evaluate (words : List Text) (json : Bool)
  | interact
  | keypad
  | settings (save : Bool)
  deriving DecidableEq

structure Invocation where
  precision : Option UInt32
  command : Option Command
  deriving DecidableEq

/-- Why arguments are no invocation. Asking for help ends their reading as well. -/
inductive UsageError where
  | repeated
  | missingExpression
  | missingValue
  | invalidValue
  | unexpectedValue
  | unknownArgument
  | unknownCommand
  | help
  deriving DecidableEq

namespace Arguments

/-- What an argument looks like. A lone dash is a word. -/
inductive Shape where
  | endOfOptions
  | long (name : Text) (value : Option Text)
  | short (letters : Text)
  | word
  deriving DecidableEq

def shape : Text → Shape
  | ['-', '-'] => .endOfOptions
  | '-' :: '-' :: t =>
    let name := t.takeWhile (· != '=')
    match t.dropWhile (· != '=') with
    | [] => .long name none
    | _ :: value => .long name (some value)
  | '-' :: c :: t => .short (c :: t)
  | _ => .word

/-- An option that has been named but not checked. -/
inductive Pending where
  | nothing
  | awaiting
  | value (t : Text)
  deriving DecidableEq

/-- The options read on one level: the precision, and the flag that the level knows, if it does. -/
structure Options where
  precision : Option UInt32 := none
  pending : Pending := .nothing
  flag : Bool := false
  deriving DecidableEq

/-- A number from 0 to `2^32 - 1`, perhaps with a sign. -/
def precisionValue? (t : Text) : Option UInt32 :=
  let digits :=
    match t with
    | '+' :: t => t
    | '-' :: t => t
    | t => t
  let n := Text.digitsValue digits
  let fits := if t.head? = some '-' then n = 0 else n < UInt32.size
  if !digits.isEmpty && digits.all Char.isDigit && fits then some (.ofNat n) else none

namespace Options

/-- Checks what is pending. -/
def settle (o : Options) : Except UsageError Options :=
  match o.pending with
  | .nothing => .ok o
  | .awaiting => .error .missingValue
  | .value t =>
    if o.precision.isSome then .error .repeated
    else
      match precisionValue? t with
      | some n => .ok { o with precision := some n, pending := .nothing }
      | none => .error .invalidValue

/-- Names the precision. A value of its own is checked at once, one in the next argument later. -/
def namePrecision (o : Options) (value : Option Text) : Except UsageError Options := do
  let o ← o.settle
  match value with
  | some t => settle { o with pending := .value t }
  | none => return { o with pending := .awaiting }

def askHelp (o : Options) : Except UsageError Options := do
  let _ ← o.settle
  throw .help

def raiseFlag (o : Options) : Except UsageError Options := do
  let o ← o.settle
  if o.flag then throw .repeated else return { o with flag := true }

/-- Takes a long option on a level that knows this flag; nothing if it does not know the option. -/
def long? (flag : Option Text) (o : Options) (name : Text) (value : Option Text) :
    Option (Except UsageError Options) :=
  if name = "precision".toList then some (o.namePrecision value)
  else if name = "help".toList then
    some (if value.isSome then .error .unexpectedValue else o.askHelp)
  else if flag = some name then
    some (if value.isSome then .error .unexpectedValue else o.raiseFlag)
  else none

end Options

/-- The options of a command that takes no words. -/
def options (flag : Option Text) (o : Options) : List Text → Except UsageError Options
  | [] => o.settle
  | a :: rest =>
    match shape a with
    | .endOfOptions => if rest.isEmpty then o.settle else .error .unknownArgument
    | .long name value =>
      match o.long? flag name value with
      | some (.ok o) => options flag o rest
      | some (.error e) => .error e
      | none => .error .unknownArgument
    | .short letters =>
      if letters.head? = some 'h' then o.askHelp else .error .unknownArgument
    | .word =>
      if o.pending = .awaiting then options flag { o with pending := .value a } rest
      else .error .unknownArgument

/-- The options and words of an expression. What is no option is a word, or the value of an option
that waits for one. -/
def expression (o : Options) : List Text → Except UsageError (Options × List Text)
  | [] => do
    let _ ← o.settle
    throw .missingExpression
  | a :: rest =>
    let word : Except UsageError (Options × List Text) :=
      if o.pending = .awaiting then expression { o with pending := .value a } rest
      else o.settle.map fun o => (o, a :: rest)
    match shape a with
    | .endOfOptions => do
      let o ← o.settle
      if rest.isEmpty then throw .missingExpression else return (o, rest)
    | .long name value =>
      match o.long? (some "json".toList) name value with
      | some (.ok o) => expression o rest
      | some (.error e) => .error e
      | none => word
    | .short letters =>
      if letters.all (· == 'h') then o.askHelp.map fun o => (o, []) else word
    | .word => word

def evaluateName : Text := "eval".toList

def interactName : Text := "repl".toList

def keypadName : Text := "keypad".toList

def settingsName : Text := "config".toList

def helpName : Text := "help".toList

def commandNames : List Text :=
  [evaluateName, interactName, keypadName, settingsName, helpName]

/-- Help may be asked for a command by its name. -/
def help : List Text → UsageError
  | [] => .help
  | [name] => if name ∈ commandNames then .help else .unknownCommand
  | _ => .unknownCommand

/-- The command of a name, with the precision given behind it. -/
def command (name : Text) (rest : List Text) : Except UsageError (Command × Option UInt32) :=
  if name = evaluateName then do
    let (o, words) ← expression {} rest
    return (.evaluate words o.flag, o.precision)
  else if name = interactName then do
    let o ← options none {} rest
    return (.interact, o.precision)
  else if name = keypadName then do
    let o ← options none {} rest
    return (.keypad, o.precision)
  else if name = settingsName then do
    let o ← options (some "save".toList) {} rest
    return (.settings o.flag, o.precision)
  else throw (help rest)

/-- All arguments. The precision behind a command wins over the one before it, and so do the errors
behind it. -/
def parseFrom (o : Options) : List Text → Except UsageError Invocation
  | [] => do
    let o ← o.settle
    return ⟨o.precision, none⟩
  | a :: rest =>
    if a ∈ commandNames ∧ o.pending ≠ .awaiting then do
      let (command, precision) ← command a rest
      let o ← o.settle
      return ⟨precision.or o.precision, some command⟩
    else
      match shape a with
      | .endOfOptions =>
        match rest with
        | [] => do
          let o ← o.settle
          return ⟨o.precision, none⟩
        | name :: _ => throw (if name ∈ commandNames then .unknownArgument else .unknownCommand)
      | .long name value =>
        match o.long? none name value with
        | some (.ok o) => parseFrom o rest
        | some (.error e) => .error e
        | none => .error .unknownArgument
      | .short letters =>
        if letters.head? = some 'h' then do
          let _ ← o.askHelp
          throw .help
        else throw .unknownArgument
      | .word =>
        if o.pending = .awaiting then parseFrom { o with pending := .value a } rest
        else throw .unknownCommand

def parse (args : List Text) : Except UsageError Invocation :=
  parseFrom {} args

end Arguments

end KeypadCalculator
