import DocBlocks.Error
import DocBlocks.Store.Change

/-
  Work on files.

  A session holds the file system, what was logged and what was printed. All of it is told also
  when the work fails.
-/

namespace DocBlocks

/-- How much a log line matters. -/
inductive Level where
  | info
  | warn
  deriving DecidableEq, Repr

/-- The written name of a level. -/
def Level.label : Level → String
  | info => "INFO"
  | warn => "WARN"

/-- A line of the log. -/
structure LogLine where
  level : Level
  text : String
  deriving DecidableEq, Repr

/-- The state of the work. -/
structure Session where
  files : FileSystem
  log : List LogLine
  output : String

/-- The start of a session. -/
def Session.start (files : FileSystem) : Session := ⟨files, [], ""⟩

/-- The texts of the warnings. -/
def Session.warnings (s : Session) : List String :=
  (s.log.filter (·.level == .warn)).map (·.text)

/-- Work that may fail. -/
abbrev Work (ε α : Type) := ExceptT ε (StateM Session) α

namespace Work

/-- Adds a line to the log. -/
def note {ε : Type} (level : Level) (text : String) : Work ε Unit :=
  modify fun s => { s with log := s.log ++ [⟨level, text⟩] }

/-- Logs what happens. -/
def info {ε : Type} (text : String) : Work ε Unit := note .info text

/-- Logs what may be wrong. -/
def warn {ε : Type} (text : String) : Work ε Unit := note .warn text

/-- Prints a text. -/
def print {ε : Type} (text : String) : Work ε Unit :=
  modify fun s => { s with output := s.output ++ text }

/-- The file system as it is now. -/
def files {ε : Type} : Work ε FileSystem := do pure (← get).files

/-- Goes on with a value, or fails with the error that a failure becomes. -/
def ofExcept {ε δ α : Type} (describe : δ → ε) : Except δ α → Work ε α
  | .ok a => pure a
  | .error e => throw (describe e)

/-- Changes the file system. What a failed change leaves behind stays. -/
def change {ε α : Type} (describe : IoFault → ε) (c : Change α) : Work ε α := do
  let (result, files) := c.run (← get).files
  modify fun s => { s with files := files }
  ofExcept describe result

/-- The outcome of work as a value. -/
def outcome {ε δ α : Type} (w : Work ε α) : Work δ (Except ε α) :=
  fun s => let (result, s') := w.run s; (.ok result, s')

/-- Work whose errors become others. -/
def describing {ε δ α : Type} (describe : ε → δ) (w : Work ε α) : Work δ α :=
  ExceptT.adapt describe w

end Work

end DocBlocks
