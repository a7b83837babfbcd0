import DocBlocks.Literal.Quoted
import DocBlocks.Syntax.Node

/-
  Values of arguments.

  Only literals and bare names have a value that can be told without running the program. An
  integer that no signed word of 64 bits can hold is read as a floating-point number.
-/

namespace DocBlocks

/-- The value of an argument as far as it can be told. -/
inductive ArgumentValue where
  | string (text : String)
  | integer (value : Int)
  | float (value : Binary64)
  /-- A bare name, also one of the words for truth values and nothing. -/
  | constant (name : String)
  | unresolved
  deriving DecidableEq, Repr

namespace ArgumentValue

instance : Inhabited ArgumentValue := ⟨unresolved⟩

/-- Whether nothing can be told of a value. -/
def isUnresolved : ArgumentValue → Bool
  | unresolved => true
  | _ => false

/-- Puts a backslash before every single quote. -/
def escapeQuotes : List Char → List Char
  | [] => []
  | c :: cs => if c = '\'' then '\\' :: '\'' :: escapeQuotes cs else c :: escapeQuotes cs

/-- A value for reading. -/
def display : ArgumentValue → String
  | string s => "'" ++ String.ofList (escapeQuotes s.toList) ++ "'"
  | integer i => toString i
  | float x => displayStyle.write x
  | constant name => name
  | unresolved => "<opaque>"

end ArgumentValue

/-! ### Number literals -/

/-- A text without the underscores between its digits. -/
def dropUnderscores (s : String) : List Char :=
  s.toList.filter (· != '_')

/-- The integer that a literal without underscores and in lower case stands for. What stands in
front of the digits tells their base. -/
def integerOf? : List Char → Option Int
  | '0' :: 'x' :: cs => readInteger? 16 cs
  | '0' :: 'b' :: cs => readInteger? 2 cs
  | '0' :: 'o' :: cs => readInteger? 8 cs
  | '0' :: c :: cs => readInteger? 8 (c :: cs)
  | cs => readInteger? 10 cs

/-- The value of a floating-point literal. -/
def floatValue (cs : List Char) : ArgumentValue :=
  match readNumber? cs with
  | some x => .float x
  | none => .unresolved

/-- The value of an integer literal. -/
def integerValue (s : String) : ArgumentValue :=
  let cs := (dropUnderscores s).map Char.toLower
  match (integerOf? cs).filter fitsWord with
  | some i => .integer i
  | none => floatValue cs

/-! ### Literals -/

/-- The rules of the parts that make up a text without interpolation. -/
def plainPartRules : List String := ["string_content", "string_value", "escape_sequence"]

/-- Whether a double-quoted literal holds no interpolation. -/
def isPlainQuoted (n : Node) : Bool :=
  n.namedChildren.all fun part => plainPartRules.contains part.rule

/-- The value of a double-quoted literal. -/
def quotedValue (n : Node) : ArgumentValue :=
  if isPlainQuoted n then
    match decodeDoubleQuoted? n.text with
    | some s => .string s
    | none => .unresolved
  else .unresolved

/-- The value of an expression. -/
def valueOf (n : Node) : ArgumentValue :=
  match n.kind with
  | .expr (.literal .string) => .string (decodeSingleQuoted n.text)
  | .expr (.literal .interpolatedString) => quotedValue n
  | .expr (.literal .integer) => integerValue n.text
  | .expr (.literal .float) => floatValue (dropUnderscores n.text)
  | .expr (.literal .boolean) => .constant n.text
  | .expr (.literal .null) => .constant n.text
  | .name => .constant n.text
  | _ => .unresolved

end DocBlocks
