import DocBlocks.Format.Data

/-
  Data as JSON, one item or field a line, each level indented by two blanks.
-/

namespace DocBlocks.Json

/-- Numbers are positional from 0.00001 to below ten to the sixteenth; positive exponents carry
their sign. What is not finite has no number. -/
def numberStyle : NumberStyle := ⟨-5, 16, true, false, "null", "null", "null"⟩

/-- A character between quotes. -/
def escapeChar (c : Char) : List Char :=
  if c = '"' then ['\\', '"']
  else if c = '\\' then ['\\', '\\']
  else if c = '\x08' then ['\\', 'b']
  else if c = '\x0c' then ['\\', 'f']
  else if c = '\n' then ['\\', 'n']
  else if c = '\r' then ['\\', 'r']
  else if c = '\t' then ['\\', 't']
  else if c.toNat < 0x20 then
    ['\\', 'u', '0', '0', Nat.digitChar (c.toNat / 16), Nat.digitChar (c.toNat % 16)]
  else [c]

/-- A text between quotes. -/
def quoted (s : String) : String :=
  "\"" ++ String.ofList (s.toList.flatMap escapeChar) ++ "\""

/-- A new line at a level. -/
def newLine (level : Nat) : String :=
  String.ofList ('\n' :: List.replicate (2 * level) ' ')

mutual

/-- Data at a level. -/
def writeAt (level : Nat) : Data → String
  | .null => "null"
  | .flag b => if b then "true" else "false"
  | .integer i => toString i
  | .float x => numberStyle.write x
  | .text s => quoted s
  | .list [] => "[]"
  | .list (d :: ds) =>
    "[" ++ newLine (level + 1) ++ writeAt (level + 1) d ++ writeItems (level + 1) ds ++
      newLine level ++ "]"
  | .record [] => "\x7b\x7d"
  | .record ((name, d) :: fs) =>
    "\x7b" ++ newLine (level + 1) ++ quoted name ++ ": " ++ writeAt (level + 1) d ++
      writeFields (level + 1) fs ++ newLine level ++ "\x7d"

/-- The items of a list behind its first one. -/
def writeItems (level : Nat) : List Data → String
  | [] => ""
  | d :: ds => "," ++ newLine level ++ writeAt level d ++ writeItems level ds

/-- The fields of a record behind its first one. -/
def writeFields (level : Nat) : List (String × Data) → String
  | [] => ""
  | (name, d) :: fs =>
    "," ++ newLine level ++ quoted name ++ ": " ++ writeAt level d ++ writeFields level fs

end

/-- Data as JSON. -/
def write (d : Data) : String := writeAt 0 d

end DocBlocks.Json
