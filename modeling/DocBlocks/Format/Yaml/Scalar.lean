import DocBlocks.Format.Yaml.Character
import DocBlocks.Number.Text

/-
  What a plain scalar reads as.

  A scalar without quotes may be read as nothing, as a truth value or as a number instead of a
  text.
-/

namespace DocBlocks.Yaml

/-- The words for nothing. -/
def nullWords : List String := ["null", "Null", "NULL", "~"]

/-- The words for truth values. -/
def flagWords : List (String × Bool) :=
  [("true", true), ("True", true), ("TRUE", true), ("false", false), ("False", false),
   ("FALSE", false)]

/-- Whether a text, its sign aside, is a zero with further digits behind it. -/
def isPaddedDigits (cs : List Char) : Bool :=
  match (takeSign cs).2 with
  | '0' :: c :: cs => (c :: cs).all Char.isDigit
  | _ => false

/-- The largest number of bits of an integer. -/
def integerBits : Nat := 128

/-- The base that the first two characters of a number tell, and the digits. -/
def baseOf? : List Char → Option (Nat × List Char)
  | '0' :: 'x' :: cs => some (16, cs)
  | '0' :: 'o' :: cs => some (8, cs)
  | '0' :: 'b' :: cs => some (2, cs)
  | _ => none

/-- Reads an integer: with a base, or in decimal without padding. -/
def readScalarInteger? (cs : List Char) : Option Int :=
  let (negative, digits) := takeSign cs
  let magnitude := match baseOf? digits with
    | some (base, ds) => readDigits? base ds
    | none => if isPaddedDigits cs then none else readDigits? 10 digits
  match magnitude with
  | none => none
  | some n =>
    if negative then if n ≤ Nat.pow 2 (integerBits - 1) then some (-(n : Int)) else none
    else if n < Nat.pow 2 integerBits then some n else none

/-- The words for what is not finite. -/
def infinityWords : List String := [".inf", ".Inf", ".INF"]

/-- The words for what is no number. -/
def undefinedWords : List String := [".nan", ".NaN", ".NAN"]

/-- Reads a floating-point number. -/
def readScalarFloat? (s : String) : Option Binary64 :=
  let cs := s.toList
  let (negative, rest) := takeSign cs
  let word := String.ofList rest
  if infinityWords.contains word then some (.infinite negative)
  else if undefinedWords.contains s then some .undefined
  else match rest with
    | '+' :: _ => none
    | '-' :: _ => none
    | _ => match readNumber? cs with
      | some (.finite n m e) => some (.finite n m e)
      | _ => none

/-- What a plain scalar reads as. -/
inductive Reading where
  | null
  | flag (value : Bool)
  | integer (value : Int)
  | float (value : Binary64)
  | text
  deriving DecidableEq, Repr

/-- Reads a plain scalar. -/
def readScalar (s : String) : Reading :=
  if s.isEmpty || nullWords.contains s then .null
  else match flagWords.lookup s with
    | some b => .flag b
    | none => match readScalarInteger? s.toList with
      | some i => .integer i
      | none =>
        if isPaddedDigits s.toList then .text
        else match readScalarFloat? s with
          | some x => .float x
          | none => .text

end DocBlocks.Yaml
