import DocBlocks.Format.Schema
import DocBlocks.Text.Hidden

/-
  Data that does not have the form it should have.
-/

namespace DocBlocks

/-- What was found in place of something else. -/
inductive Found where
  | null
  | flag (value : Bool)
  | integer (value : Int)
  | float (value : Binary64)
  | text (value : String)
  | list
  | record
  /-- A value under a tag of its own. -/
  | tagged
  deriving DecidableEq, Repr

/-- A character of a text that is shown between quotes. One that cannot be seen is shown by its
number. -/
def showChar (c : Char) : List Char :=
  if c == '"' then ['\\', '"']
  else if c == '\\' then ['\\', '\\']
  else if c == '\n' then ['\\', 'n']
  else if c == '\r' then ['\\', 'r']
  else if c == '\t' then ['\\', 't']
  else if c.toNat == 0 then ['\\', '0']
  else if isHidden c then ['\\', 'u', '{'] ++ Nat.toDigits 16 c.toNat ++ ['}']
  else [c]

/-- A text shown between quotes. -/
def showText (s : String) : String :=
  "\"" ++ String.ofList (s.toList.flatMap showChar) ++ "\""

/-- What was found, in words, with the word for nothing and the style of numbers. -/
def Found.message (nullWord : String) (number : Binary64 → String) : Found → String
  | null => nullWord
  | flag b => "boolean \x60" ++ (if b then "true" else "false") ++ "\x60"
  | integer i =>
    let width :=
      if Int.pow 2 64 ≤ i then " as u128" else if i < -(Int.pow 2 63) then " as i128" else ""
    "integer \x60" ++ toString i ++ "\x60" ++ width
  | float x => "floating point \x60" ++ number x ++ "\x60"
  | text s => "string " ++ showText s
  | list => "sequence"
  | record => "map"
  | tagged => "enum"

/-- A fault in the form of data. -/
inductive FormFault where
  | wrongType (found : Found) (expected : String)
  | wrongValue (found : Found) (expected : String)
  | wrongLength (length : Nat) (expected : String)
  | missingField (name : String)
  | duplicateField (name : String)
  | unknownTag (tag : String)
  /-- A value under a tag of its own where its form is not known yet. -/
  | strayTag
  deriving DecidableEq, Repr

/-- A fault in words. -/
def FormFault.message (nullWord : String) (number : Binary64 → String) : FormFault → String
  | wrongType found expected =>
    "invalid type: " ++ found.message nullWord number ++ ", expected " ++ expected
  | wrongValue found expected =>
    "invalid value: " ++ found.message nullWord number ++ ", expected " ++ expected
  | wrongLength length expected => "invalid length " ++ toString length ++ ", expected " ++ expected
  | missingField name => "missing field \x60" ++ name ++ "\x60"
  | duplicateField name => "duplicate field \x60" ++ name ++ "\x60"
  | unknownTag tag => ArgumentKind.unknownTag tag
  | strayTag => "untagged and internally tagged enums do not support enum input"

/-! ### Values of arguments -/

/-- Reads data as the value of an argument of some kind. -/
def ArgumentKind.check (kind : ArgumentKind) (found : Found) : Except FormFault ArgumentValue :=
  match kind, found with
  | .string, .text s => .ok (.string s)
  | .constant, .text s => .ok (.constant s)
  | .integer, .integer i =>
    if fitsWord i then .ok (.integer i) else .error (.wrongValue found kind.expected)
  | .float, .integer i => .ok (.float (Binary64.ofInt i))
  | .float, .float x => .ok (.float x)
  | .unresolved, .null => .ok .unresolved
  | kind, found => .error (.wrongType found kind.expected)

end DocBlocks
