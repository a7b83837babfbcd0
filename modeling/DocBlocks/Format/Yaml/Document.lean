import DocBlocks.Format.Yaml.Event
import DocBlocks.Format.Yaml.Tag

/-
  The documents of a YAML text.

  A reference to an anchor stands for the value behind the anchor. A fault in the text is met only
  when everything in front of it has been read.

  Anchors are numbered by how many names were known when they came up. A name that is used again
  therefore shares its number with the next new name, and a reference goes to the last value under
  its number.
-/

namespace DocBlocks.Yaml

/-- An item of a document. -/
inductive Item where
  /-- A reference to the value under a numbered anchor. -/
  | reference (anchor : Nat)
  | scalar (value : Scalar)
  | listStart (tag : Option String)
  | listEnd
  | recordStart (tag : Option String)
  | recordEnd
  /-- The one item of a text without a document. -/
  | void
  deriving DecidableEq, Repr

/-- The faults that end a document early. -/
inductive DocumentFault where
  | text (fault : TextFault)
  | unknownAnchor (mark : Mark)
  deriving DecidableEq, Repr

/-- A document: its items with their places, the positions of its anchors, the last one first, and
the fault behind it. -/
structure Document where
  items : List (Item × Mark)
  anchors : List (Nat × Nat)
  fault : Option DocumentFault

/-- The names of anchors with their numbers. -/
abbrev AnchorNames := List (String × Nat)

/-- Gives a name the next number. -/
def AnchorNames.add (names : AnchorNames) (name : String) : AnchorNames :=
  (name, names.length) :: names.filter (·.1 != name)

/-- What has been collected of a document. -/
structure Collected where
  names : AnchorNames
  /-- The positions of anchors by their numbers, the last one first. -/
  anchors : List (Nat × Nat)
  /-- The items, the last one first. -/
  items : List (Item × Mark)

namespace Collected

/-- Nothing. -/
def empty : Collected := ⟨[], [], []⟩

/-- Adds an item, which may carry an anchor. -/
def add (c : Collected) (anchor : Option String) (item : Item) (mark : Mark) : Collected :=
  let c := match anchor with
    | none => c
    | some name =>
      ⟨c.names.add name, (c.names.length, c.items.length) :: c.anchors, c.items⟩
  { c with items := (item, mark) :: c.items }

/-- The document of all that has been collected. -/
def document (c : Collected) (fault : Option DocumentFault) : Document :=
  ⟨c.items.reverse, c.anchors, fault⟩

end Collected

/-- Collects the items of the first document. The answer holds the events behind it, if the document
came to its end. -/
def collectItems (fault : Option TextFault) (c : Collected) :
    List Event → Document × Option (List Event)
  | [] => (c.document (fault.map .text), none)
  | e :: es =>
    let goOn (anchor : Option String) (item : Item) :=
      collectItems fault (c.add anchor item e.mark) es
    match e.form with
    | .documentStart => collectItems fault c es
    | .documentEnd => (c.document none, some es)
    | .streamEnd =>
      ((if c.items.isEmpty then c.add none .void e.mark else c).document none, none)
    | .reference name =>
      match c.names.lookup name with
      | some anchor => goOn none (.reference anchor)
      | none => (c.document (some (.unknownAnchor e.mark)), none)
    | .scalar anchor tag text style => goOn anchor (.scalar ⟨tag, text, style⟩)
    | .sequenceStart anchor tag => goOn anchor (.listStart tag)
    | .sequenceEnd => goOn none .listEnd
    | .mappingStart anchor tag => goOn anchor (.recordStart tag)
    | .mappingEnd => goOn none .recordEnd

/-- The first document of a text, and whether it is the only one. -/
def documentOf (source : String) : Document × Bool :=
  let s := eventsOf source
  match collectItems s.fault .empty s.events with
  | (document, none) => (document, true)
  | (document, some rest) =>
    (document, s.fault.isNone && rest.all fun e => e.form == .streamEnd)

/-! ### Faults -/

/-- The faults of reading a document. -/
inductive Error where
  /-- A fault in the form of data, with its place and the path to it. -/
  | form (fault : FormFault) (place : Option (Mark × String))
  | document (fault : DocumentFault)
  | endOfStream
  | moreDocuments
  | tooDeep (mark : Mark)
  | tooManyReferences
  deriving DecidableEq, Repr

/-- The path of a whole document. -/
def rootPath : String := "."

/-- Numbers in messages are written out in full. -/
def messageStyle : NumberStyle := ⟨-2000, 2000, false, true, "inf", "-inf", "NaN"⟩

/-- Words with a place behind them, unless it is the front of the text. -/
def withPlace (words : String) (mark : Mark) : String :=
  if mark.isInside then words ++ " at " ++ mark.message else words

/-- A fault in words. -/
def Error.message : Error → String
  | form fault place =>
    let words := fault.message "unit value" messageStyle.write
    match place with
    | none => words
    | some (mark, path) =>
      withPlace (if path == rootPath then words else path ++ ": " ++ words) mark
  | document (.text fault) => fault.message
  | document (.unknownAnchor mark) => withPlace "unknown anchor" mark
  | endOfStream => "EOF while parsing a value"
  | moreDocuments =>
    "deserializing from YAML containing more than one document is not supported"
  | tooDeep mark => withPlace "recursion limit exceeded" mark
  | tooManyReferences => "repetition limit exceeded"

end DocBlocks.Yaml
