import DocBlocks.Format.Data

/-
  The form that data must have to be read.

  A record can be given with its fields by name, in any order and with strange fields among them,
  or as a list of its fields in order.
-/

namespace DocBlocks

/-- The form of data. -/
inductive Schema where
  | text
  /-- A text that is the path of a file. -/
  | path
  | flag
  /-- A number of at most 64 bits without a sign. -/
  | natural
  | optional (content : Schema)
  | list (item : Schema)
  /-- A record with its name for messages and its fields. A flagged field may be left out of a
  list of fields. -/
  | record (name : String) (fields : List (String × Schema × Bool))
  /-- The value of an argument, tagged with its kind. -/
  | argument
  /-- Texts by name. -/
  | table
  deriving Repr, Inhabited

namespace Schema

/-- What is expected, in words. -/
def expected : Schema → String
  | text => "a string"
  | path => "path string"
  | flag => "a boolean"
  | natural => "usize"
  | optional _ => "option"
  | list _ => "a sequence"
  | record name _ => "struct " ++ name
  | argument => "adjacently tagged enum ArgValue"
  | table => "a map"

/-- Whether a field of this form may be missing. -/
def isOptional : Schema → Bool
  | optional _ => true
  | _ => false

end Schema

/-- The kinds of arguments. -/
inductive ArgumentKind where
  | string
  | integer
  | float
  | constant
  | unresolved
  deriving DecidableEq, Repr

namespace ArgumentKind

/-- The kinds with their tags. -/
def tags : List (String × ArgumentKind) :=
  [("string", string), ("integer", integer), ("float", float), ("constant", constant),
   ("opaque", unresolved)]

/-- The tag of a kind. -/
def tag : ArgumentKind → String
  | string => "string"
  | integer => "integer"
  | float => "float"
  | constant => "constant"
  | unresolved => "opaque"

/-- The value that is expected for a kind, in words. -/
def expected : ArgumentKind → String
  | string => "a string"
  | integer => "i64"
  | float => "f64"
  | constant => "a string"
  | unresolved => "unit variant ArgValue::Opaque"

/-- The message for a strange tag. -/
def unknownTag (tag : String) : String :=
  "unknown variant \x60" ++ tag ++ "\x60, expected one of " ++
    ", ".intercalate (tags.map fun (t, _) => "\x60" ++ t ++ "\x60")

end ArgumentKind

/-! ### The forms of descriptions -/

namespace Schema

/-- The form of a call. -/
def callFrame : Schema :=
  record "CallFrame" [("method", text, false), ("args", list argument, false)]

/-- The form of a chain. -/
def queryChain : Schema :=
  record "QueryChain" [("model", text, false), ("calls", list callFrame, false),
    ("line", natural, false), ("text", text, false)]

/-- The form of a parameter. -/
def parameter : Schema :=
  record "Parameter" [("name", text, false), ("type", optional text, false),
    ("default_value", optional text, false), ("variadic", flag, false),
    ("by_reference", flag, false)]

/-- The form of a range of lines. -/
def lineRange : Schema :=
  record "LineSpan" [("start_line", natural, false), ("end_line", natural, false)]

/-- The form of a method. -/
def methodDescriptor : Schema :=
  record "MethodDescriptor" [("name", text, false), ("parameters", list parameter, false),
    ("return_type", optional text, false), ("is_static", flag, false), ("span", lineRange, false),
    ("doc_comment", optional text, false), ("queries", list queryChain, false),
    ("source", text, false)]

/-- The form of a class. -/
def classDescriptor : Schema :=
  record "ClassDescriptor" [("class_name", text, false), ("namespace", optional text, false),
    ("parent", optional text, false), ("imports", list text, false),
    ("methods", list methodDescriptor, false), ("path", optional path, true)]

end Schema

end DocBlocks
