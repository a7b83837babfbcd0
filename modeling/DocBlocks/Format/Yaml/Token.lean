import DocBlocks.Format.Yaml.Character

/-
  Tokens of a YAML text, with their places.
-/

namespace DocBlocks.Yaml

/-- A place in a text: characters passed, lines passed, characters of the line passed. -/
structure Mark where
  index : Nat
  line : Nat
  column : Nat
  deriving DecidableEq, Repr, Inhabited

namespace Mark

/-- The front of a text. -/
def start : Mark := ⟨0, 0, 0⟩

/-- Whether a place is not the front of a text. -/
def isInside (m : Mark) : Bool := m.line != 0 || m.column != 0

/-- A place in words. -/
def message (m : Mark) : String :=
  "line " ++ toString (m.line + 1) ++ " column " ++ toString (m.column + 1)

end Mark

/-- How a scalar is written. -/
inductive ScalarStyle where
  | plain
  | quoted
  /-- A block that keeps its lines. -/
  | literal
  /-- A block whose lines are joined. -/
  | folded
  deriving DecidableEq, Repr

/-- What a token is. -/
inductive TokenForm where
  | streamStart
  | streamEnd
  /-- The version that a document says it is written in. -/
  | version (major minor : Nat)
  /-- A handle for tags with what it stands for. -/
  | tagHandle (handle meaning : String)
  | documentStart
  | documentEnd
  | blockSequenceStart
  | blockMappingStart
  | blockEnd
  | flowSequenceStart
  | flowSequenceEnd
  | flowMappingStart
  | flowMappingEnd
  | blockEntry
  | flowEntry
  | key
  | value
  | reference (name : String)
  | anchor (name : String)
  | tag (handle suffix : String)
  | scalar (text : String) (style : ScalarStyle)
  deriving DecidableEq, Repr

/-- A token with its ends. -/
structure Token where
  form : TokenForm
  start : Mark
  stop : Mark
  deriving DecidableEq, Repr

/-! ### Faults of a text -/

/-- A fault of a YAML text, found while something else was going on. -/
structure TextFault where
  problem : String
  mark : Mark
  context : Option (String × Mark)
  /-- The byte offset of a character that no text may hold. -/
  offset : Nat
  deriving DecidableEq, Repr

/-- A fault in words. Places at the front of the text are left out. -/
def TextFault.message (f : TextFault) : String :=
  let place := if f.mark.isInside then " at " ++ f.mark.message
    else if f.offset != 0 then " at position " ++ toString f.offset else ""
  let context := match f.context with
    | none => ""
    | some (words, mark) =>
      ", " ++ words ++
        (if mark.isInside && (mark.line != f.mark.line || mark.column != f.mark.column) then
          " at " ++ mark.message else "")
  f.problem ++ place ++ context

end DocBlocks.Yaml
