import DocBlocks.Command.Help

/-
  The command line.

  Arguments are read from left to right. What was given is settled when the next thing is settled
  or the arguments end, so the first of two mistakes is told, except that a strange argument is
  told before a value that still waits to be settled.
-/

namespace DocBlocks

/-- The formats of a report. -/
inductive OutputFormat where
  | yaml
  | json
  deriving DecidableEq, Repr

namespace OutputFormat

/-- The format with a name on the command line. -/
def ofWord? : String → Option OutputFormat
  | "yaml" => some yaml
  | "json" => some json
  | _ => none

/-- The name of a format in the log. -/
def label : OutputFormat → String
  | yaml => "Yaml"
  | json => "Json"

end OutputFormat

/-- What the program is asked to do. -/
inductive Command where
  | extract (path : String) (format : OutputFormat) (output : Option String)
  | write (file docs : String) (output : Option String) (dryRun : Bool)
  deriving DecidableEq, Repr

/-- A command line that was understood. -/
structure Invocation where
  command : Command
  verbose : Bool
  deriving DecidableEq, Repr

/-- The reasons why a command line runs no command. -/
inductive Refusal where
  | help (topic : Topic) (long : Bool)
  | version
  | nothingGiven
  | missingCommand
  | unknownCommand
  | missingArgument
  | unknownArgument
  | invalidValue
  | strayValue
  | repeated
  deriving DecidableEq, Repr

namespace Refusal

/-- The name of a reason. -/
def name : Refusal → String
  | help _ _ => "DisplayHelp"
  | version => "DisplayVersion"
  | nothingGiven => "DisplayHelpOnMissingArgumentOrSubcommand"
  | missingCommand => "MissingSubcommand"
  | unknownCommand => "InvalidSubcommand"
  | missingArgument => "MissingRequiredArgument"
  | unknownArgument => "UnknownArgument"
  | invalidValue => "InvalidValue"
  | strayValue => "TooManyValues"
  | repeated => "ArgumentConflict"

/-- What is printed when help or the version was asked for. -/
def output? : Refusal → Option String
  | help topic long => some (topic.text long)
  | version => some versionText
  | _ => none

/-- The exit code of the program. -/
def exitCode (r : Refusal) : Nat := if r.output?.isSome then 0 else 2

end Refusal

/-! ### Switches -/

/-- The places that a value on the command line can go to. -/
inductive Slot where
  | verbose
  | help
  | version
  | format
  | output
  | docs
  | dryRun
  /-- The one argument that is no switch. -/
  | subject
  deriving DecidableEq, Repr

/-- A switch with its names. -/
structure Switch where
  slot : Slot
  short : Option Char
  long : String
  takesValue : Bool
  deriving DecidableEq, Repr

/-- The switch for a detailed log. -/
def verboseSwitch : Switch := ⟨.verbose, some 'v', "verbose", false⟩

/-- The switch for help. -/
def helpSwitch : Switch := ⟨.help, some 'h', "help", false⟩

/-- The switch for the version. -/
def versionSwitch : Switch := ⟨.version, some 'V', "version", false⟩

/-- The switch for the place of the output. -/
def outputSwitch : Switch := ⟨.output, some 'o', "output", true⟩

/-- The switches of the program and its commands. -/
def Topic.switches : Topic → List Switch
  | .program => [verboseSwitch, helpSwitch, versionSwitch]
  | .extract => [⟨.format, some 'f', "format", true⟩, outputSwitch, verboseSwitch, helpSwitch]
  | .write =>
    [⟨.docs, some 'd', "docs", true⟩, outputSwitch, ⟨.dryRun, none, "dry-run", false⟩,
      verboseSwitch, helpSwitch]
  | .help => []

/-- The command with a name, `help` included. -/
def Topic.ofWord? : String → Option Topic
  | "extract" => some .extract
  | "write" => some .write
  | "help" => some .help
  | _ => none

/-! ### Reading -/

/-- How far the arguments were read. -/
structure Reading where
  topic : Topic
  /-- What is settled, last first. -/
  settled : List (Slot × String)
  /-- What is still to be settled. -/
  pending : Option (Slot × Option String)
  /-- Whether the next argument is the value of what is pending. -/
  awaiting : Bool
  /-- Whether only arguments that are no switches follow. -/
  trailing : Bool
  deriving DecidableEq, Repr

namespace Reading

/-- The start of the arguments of a topic. -/
def start (topic : Topic) : Reading := ⟨topic, [], none, false, false⟩

/-- The value in a slot. -/
def get? (r : Reading) (slot : Slot) : Option String := r.settled.lookup slot

/-- Whether there is something in a slot. -/
def has (r : Reading) (slot : Slot) : Bool := (r.get? slot).isSome

/-- Whether a value is right for a slot. -/
def accepts : Slot → String → Bool
  | .format, value => (OutputFormat.ofWord? value).isSome
  | .output, value => value != ""
  | .docs, value => value != ""
  | .subject, value => value != ""
  | _, _ => true

/-- Settles a value. -/
def settleValue (r : Reading) (slot : Slot) (value : String) : Except Refusal Reading :=
  if r.has slot then .error .repeated
  else if accepts slot value then .ok { r with settled := (slot, value) :: r.settled }
  else .error .invalidValue

/-- Settles what is pending. -/
def settle (r : Reading) : Except Refusal Reading :=
  match r.pending with
  | none => .ok r
  | some (_, none) => .error .invalidValue
  | some (slot, some value) => { r with pending := none }.settleValue slot value

/-- A switch without a value was given, in its long form or not. -/
def give (r : Reading) (slot : Slot) (long : Bool) : Except Refusal Reading := do
  let r ← r.settle
  match slot with
  | .help => .error (.help r.topic long)
  | .version => .error .version
  | _ => do
    let r ← r.settleValue slot ""
    pure { r with awaiting := false }

/-- A switch was given together with its value. -/
def giveValue (r : Reading) (slot : Slot) (value : String) : Except Refusal Reading := do
  let r ← r.settle
  let r ← r.settleValue slot value
  pure { r with awaiting := false }

/-- A switch was given whose value follows. -/
def await (r : Reading) (slot : Slot) : Except Refusal Reading := do
  let r ← r.settle
  pure { r with pending := some (slot, none), awaiting := true }

/-- An argument in the long form, behind its two dashes. -/
def readLong (r : Reading) (cs : List Char) : Except Refusal Reading :=
  let name := cs.takeWhile (· != '=')
  let value := (cs.drop name.length).tail?.map String.ofList
  match r.topic.switches.find? (·.long.toList == name), value with
  | none, _ => .error .unknownArgument
  | some s, some value => if s.takesValue then r.giveValue s.slot value else .error .strayValue
  | some s, none => if s.takesValue then r.await s.slot else r.give s.slot true

/-- Switches in their short form, behind the dash. The value of one may follow directly, with an
equals sign or without. -/
def readShort (r : Reading) : List Char → Except Refusal Reading
  | [] => .ok r
  | c :: cs =>
    match r.topic.switches.find? (·.short == some c) with
    | none => .error .unknownArgument
    | some s =>
      if s.takesValue then
        match cs with
        | [] => r.await s.slot
        | '=' :: value => r.giveValue s.slot (String.ofList value)
        | value => r.giveValue s.slot (String.ofList value)
      else
        match r.give s.slot false with
        | .ok r => readShort r cs
        | .error e => .error e

/-- An argument that is no switch. Only commands have one. -/
def readSubject (r : Reading) (arg : String) : Except Refusal Reading :=
  if r.topic = .program then
    .error (if r.trailing && (Topic.ofWord? arg).isSome then .unknownArgument else .unknownCommand)
  else if r.has .subject || r.pending.any (·.1 == .subject) then .error .unknownArgument
  else do
    let r ← r.settle
    pure { r with pending := some (.subject, some arg), awaiting := false }

/-- One argument. -/
def read (r : Reading) (arg : String) : Except Refusal Reading :=
  if r.trailing then r.readSubject arg
  else match arg.toList with
    | ['-', '-'] => .ok { r with trailing := true }
    | '-' :: '-' :: cs => r.readLong cs
    | '-' :: c :: cs => r.readShort (c :: cs)
    | _ =>
      match r.awaiting, r.pending with
      | true, some (slot, _) => .ok { r with pending := some (slot, some arg), awaiting := false }
      | _, _ => r.readSubject arg

/-- All arguments of a command. -/
def readAll (r : Reading) : List String → Except Refusal Reading
  | [] => r.settle
  | arg :: args => do (← r.read arg).readAll args

/-! ### Commands -/

/-- A value that has to be there. -/
def require (r : Reading) (slot : Slot) : Except Refusal String :=
  match r.get? slot with
  | some value => .ok value
  | none => .error .missingArgument

/-- The command that the arguments of a topic ask for. -/
def command (r : Reading) : Except Refusal Command :=
  match r.topic with
  | .extract => do
    let path ← r.require .subject
    let format := ((r.get? .format).bind OutputFormat.ofWord?).getD .yaml
    pure (.extract path format (r.get? .output))
  | .write => do
    let file ← r.require .subject
    let docs ← r.require .docs
    pure (.write file docs (r.get? .output) (r.has .dryRun))
  | _ => .error .missingCommand

end Reading

/-- The help page that the words behind `help` ask for. Commands have no commands of their own. -/
def helpOn : List String → Refusal
  | [] => .help .program true
  | [word] =>
    match Topic.ofWord? word with
    | some topic => .help topic true
    | none => .unknownCommand
  | _ => .unknownCommand

/-- Reads the arguments of the program up to the command, and then those of the command. -/
def readProgram (r : Reading) : List String → Except Refusal Invocation
  | [] => .error (if r.settled.isEmpty then .nothingGiven else .missingCommand)
  | arg :: args =>
    match if r.trailing then none else Topic.ofWord? arg with
    | some .help => .error (helpOn args)
    | some topic => do
      let inner ← (Reading.start topic).readAll args
      pure ⟨← inner.command, r.has .verbose || inner.has .verbose⟩
    | none =>
      match r.read arg with
      | .ok r => readProgram r args
      | .error e => .error e

/-- Reads the arguments of the program. -/
def readArguments (args : List String) : Except Refusal Invocation :=
  readProgram (.start .program) args

end DocBlocks
