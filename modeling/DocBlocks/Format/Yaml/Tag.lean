import DocBlocks.Format.Fault
import DocBlocks.Format.Yaml.Scalar
import DocBlocks.Format.Yaml.Token

/-
  What a scalar stands for, by its tag and its style.

  A plain scalar reads as what it looks like. The common tags say what a scalar has to read as in
  any style. A tag of the document's own names a value, and leaves open what the value reads as.
-/

namespace DocBlocks.Yaml

/-- The common tags. -/
inductive CommonTag where
  | flag
  | integer
  | float
  | null
  deriving DecidableEq, Repr

namespace CommonTag

/-- A common tag in full. -/
def text : CommonTag → String
  | flag => "tag:yaml.org,2002:bool"
  | integer => "tag:yaml.org,2002:int"
  | float => "tag:yaml.org,2002:float"
  | null => "tag:yaml.org,2002:null"

/-- Reads a common tag. -/
def ofText? (s : String) : Option CommonTag :=
  [flag, integer, float, null].find? fun t => t.text == s

/-- What a scalar under a common tag has to be, in words. -/
def expected : CommonTag → String
  | flag => "a boolean"
  | integer => "an integer"
  | float => "a float"
  | null => "null"

/-- Reads a text as a common tag says. -/
def read? (tag : CommonTag) (s : String) : Option Found :=
  match tag with
  | flag => (flagWords.lookup s).map .flag
  | integer => (readScalarInteger? s.toList).map .integer
  | float => (readScalarFloat? s).map .float
  | null => if nullWords.contains s then some .null else none

end CommonTag

/-- The name that a tag of the document's own gives. A mark without a name stands for itself. -/
def ownTag? (tag : Option String) : Option String :=
  match tag.map String.toList with
  | some ['!'] => some "!"
  | some ('!' :: name) => some (String.ofList name)
  | _ => none

/-- A scalar with its tag. -/
structure Scalar where
  tag : Option String
  text : String
  style : ScalarStyle
  deriving DecidableEq, Repr

namespace Scalar

/-- What a text without quotes and tag is. -/
def foundPlain (s : String) : Found :=
  match readScalar s with
  | .null => .null
  | .flag b => .flag b
  | .integer i => .integer i
  | .float x => .float x
  | .text => .text s

/-- What a scalar is, or the fault that it is not what its tag says. -/
def found (s : Scalar) : Except FormFault Found :=
  match s.tag.bind CommonTag.ofText? with
  | some tag => match tag.read? s.text with
    | some found => .ok found
    | none => .error (.wrongValue (.text s.text) tag.expected)
  | none =>
    if s.style = .plain && (s.tag.isNone || (ownTag? s.tag).isSome) then .ok (foundPlain s.text)
    else .ok (.text s.text)

/-- Whether a scalar may be read as a value of a common kind: if it is plain, or a block with the
tag of that kind. -/
def allows (s : Scalar) (tag : CommonTag) : Bool :=
  s.style = .plain || (s.style = .literal && s.tag = some tag.text)

/-- Whether a scalar is plain and says nothing. -/
def isBlankPlain (s : Scalar) : Bool := s.style = .plain && s.text.isEmpty

/-- Whether a text says that there is nothing. -/
def isNullText (s : String) : Bool := s.isEmpty || nullWords.contains s

/-- Whether a scalar stands for an absent value, or the fault that it does not, against its tag. -/
def isAbsent (s : Scalar) : Except FormFault Bool :=
  if s.style != .plain then .ok false
  else match s.tag with
    | none => .ok (isNullText s.text)
    | some tag =>
      if tag != CommonTag.null.text then .ok false
      else if nullWords.contains s.text then .ok true
      else .error (.wrongValue (.text s.text) CommonTag.null.expected)

end Scalar

end DocBlocks.Yaml
