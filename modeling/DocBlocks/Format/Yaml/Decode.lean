import DocBlocks.Format.Yaml.Document

/-
  Data of a known form from YAML.

  Every scalar can be read as a text, quoted or not.
-/

namespace DocBlocks.Yaml

/-- How many lists and records may be open at once. -/
def depthLimit : Nat := 128

/-- How many references may be followed, for each item of a document. -/
def referenceLimit : Nat := 100

/-- What surrounds a reader: the document, and how many more lists and records may be opened inside
each other. -/
structure Scope where
  document : Document
  depth : Nat

/-- Where a reader stands. -/
structure Cursor where
  rest : List (Item × Mark)
  /-- How many references have been followed. -/
  followed : Nat

/-- A reader of items. -/
abbrev Read := ReaderT Scope (StateT Cursor (Except Error))

namespace Read

/-! ### Items -/

/-- The next item with its place. -/
def peek : Read (Item × Mark) := do
  match (← get).rest with
  | item :: _ => pure item
  | [] => match (← read).document.fault with
    | some fault => throw (.document fault)
    | none => throw .endOfStream

/-- The next item with its place, passed. -/
def next : Read (Item × Mark) := do
  let item ← peek
  modify fun s => { s with rest := s.rest.drop 1 }
  pure item

/-- A bound for the number of items that follow. -/
def room : Read Nat := do
  pure ((← get).rest.length + 1)

/-- Fails with a fault that gets its place later. -/
def failForm {α : Type} (fault : FormFault) : Read α := throw (.form fault none)

/-- A value, or a fault that gets its place later. -/
def ofExcept {α : Type} : Except FormFault α → Read α
  | .ok a => pure a
  | .error fault => failForm fault

/-- Gives a fault without a place the given one. -/
def placed {α : Type} (mark : Mark) (path : String) (p : Read α) : Read α :=
  tryCatch p fun e => match e with
    | .form fault none => throw (.form fault (some (mark, path)))
    | e => throw e

/-- Reads the value behind an anchor and comes back. -/
def follow {α : Type} (anchor : Nat) (p : Read α) : Read α := do
  let s ← get
  let document := (← read).document
  if document.items.length * referenceLimit ≤ s.followed then throw .tooManyReferences
  let position := (document.anchors.lookup anchor).getD 0
  set (Cursor.mk (document.items.drop position) (s.followed + 1))
  let a ← p
  modify fun t => { t with rest := s.rest }
  pure a

/-- Reads the inside of a list or record that begins at a place. -/
def nested {α : Type} (mark : Mark) (p : Read α) : Read α := do
  match (← read).depth with
  | 0 => throw (.tooDeep mark)
  | depth + 1 => withReader (fun scope => { scope with depth := depth }) p

/-- Fails since something else was expected than an item. -/
def wrongType {α : Type} (item : Item) (expected : String) : Read α := do
  match item with
  | .scalar s =>
    let found ← ofExcept s.found
    failForm (.wrongType found expected)
  | .listStart _ => failForm (.wrongType .list expected)
  | .recordStart _ => failForm (.wrongType .record expected)
  | _ => throw .endOfStream

/-- Reads the next value; a reference is followed once. -/
def value {α : Type} (path : String) (p : Item → Mark → Read α) : Read α := do
  let (item, mark) ← next
  match item with
  | .reference anchor =>
    placed mark path (follow anchor do
      let (item, mark) ← next
      placed mark path (p item mark))
  | item => placed mark path (p item mark)

/-! ### Single values -/

/-- A text. -/
def textAs (expected path : String) : Read String :=
  value path fun item _ => match item with
    | .scalar s => pure s.text
    | item => wrongType item expected

/-- A scalar of a common kind that reads as something. -/
def scalarAs {α : Type} (tag : CommonTag) (expected path : String) (f : String → Option α) :
    Read α :=
  value path fun item _ => match item with
    | .scalar s => match if s.allows tag then f s.text else none with
      | some a => pure a
      | none => wrongType item expected
    | item => wrongType item expected

/-- A number without a sign. -/
def readNatural? (s : String) : Option Data :=
  match s.toList with
  | '-' :: _ => none
  | cs => match readScalarInteger? cs with
    | some (.ofNat n) => if n < Nat.pow 2 64 then some (.integer n) else none
    | _ => none

/-- Whether an item stands for an absent value. -/
def isNothing : Item → Read Bool
  | .scalar s => ofExcept s.isAbsent
  | .void => pure true
  | _ => pure false

/-- A value that may be absent. -/
def optionalOf (content : String → Read Data) (path : String) : Read Data := do
  match (← peek).1 with
  | .reference anchor =>
    let _ ← next
    follow anchor here
  | _ => here
where
  /-- Reads the value at the reader's place. -/
  here : Read Data := do
    if ← isNothing (← peek).1 then
      let _ ← next
      pure .null
    else content path

/-! ### Lists and records -/

/-- Whether an item stands for a list or record without content. -/
def isEmptyValue : Item → Bool
  | .scalar s => s.isBlankPlain
  | .void => true
  | _ => false

/-- Passes a value of any form. -/
def skipWithin : Nat → Nat → Read Unit
  | 0, _ => pure ()
  | fuel + 1, depth => do
    let (item, _) ← next
    let depth := match item with
      | .listStart _ => depth + 1
      | .recordStart _ => depth + 1
      | .listEnd => depth - 1
      | .recordEnd => depth - 1
      | _ => depth
    if depth != 0 then skipWithin fuel depth

/-- Passes a value of any form. -/
def skipValue : Read Unit := do
  skipWithin (← room) 0

/-- The items of a list. -/
def itemsOf {α : Type} (item : String → Read α) (path : String) :
    Nat → Nat → List α → Read (List α)
  | 0, _, acc => pure acc.reverse
  | fuel + 1, index, acc => do
    if (← peek).1 == .listEnd then
      let _ ← next
      pure acc.reverse
    else
      let d ← item (path ++ "[" ++ toString index ++ "]")
      itemsOf item path fuel (index + 1) (d :: acc)

/-- A list. -/
def listOf (item : String → Read Data) (path : String) : Read Data :=
  value path fun i mark => do
    match i with
    | .listStart _ => .list <$> nested mark (do itemsOf item path (← room) 0 [])
    | i => if isEmptyValue i then pure (.list []) else wrongType i "a sequence"

/-- The path to a field. -/
def fieldPath (path name : String) : String :=
  if path == rootPath then name else path ++ "." ++ name

/-- The next key of a record, if it has one more, with the path to its value. -/
def nextKey (expected path : String) : Read (Option (String × String)) := do
  match (← peek).1 with
  | .recordEnd =>
    let _ ← next
    pure none
  | .scalar s =>
    let _ ← next
    pure (some (s.text, fieldPath path s.text))
  | _ =>
    let key ← textAs expected path
    pure (some (key, fieldPath path "?"))

/-- A field with its reader. -/
structure FieldReader where
  name : String
  read : String → Read Data
  /-- Whether the field may be missing. -/
  isOptional : Bool

/-- The fields of a record by name. -/
def namedFields (fields : List FieldReader) (path : String) :
    Nat → List (String × Data) → Read (List (String × Data))
  | 0, acc => pure acc
  | fuel + 1, acc => do
    match ← nextKey "field identifier" path with
    | none => pure acc
    | some (name, inner) =>
      match fields.find? (·.name == name) with
      | none =>
        skipValue
        namedFields fields path fuel acc
      | some field =>
        if (acc.lookup name).isSome then failForm (.duplicateField name)
        else
          let d ← field.read inner
          namedFields fields path fuel ((name, d) :: acc)

/-- The fields of a record in order, out of those that were read. -/
def arranged (fields : List FieldReader) (given : List (String × Data)) :
    Read (List (String × Data)) :=
  fields.mapM fun f =>
    match given.lookup f.name with
    | some d => pure (f.name, d)
    | none => if f.isOptional then pure (f.name, .null) else failForm (.missingField f.name)

/-- A value with named parts. The second reader is for one without content. -/
def withFields {α : Type} (expected path : String) (content : Read α) (empty : Read α) : Read α :=
  value path fun i mark => do
    match i with
    | .recordStart _ => nested mark content
    | i => if isEmptyValue i then empty else wrongType i expected

/-- A record. -/
def recordOf (expected : String) (fields : List FieldReader) (path : String) : Read Data :=
  withFields expected path (do
    let given ← namedFields fields path (← room) []
    .record <$> arranged fields given) (.record <$> arranged fields [])

/-! ### Arguments -/

/-- The kind with a tag. -/
def kindOf (tag : String) : Read ArgumentKind :=
  match ArgumentKind.tags.lookup tag with
  | some kind => pure kind
  | none => failForm (.unknownTag tag)

/-- Nothing, which is all that may stand under the tag of a kind. -/
def nothingUnderTag (item : Item) : Read Unit := do
  match item with
  | .scalar s =>
    if s.style = .plain && Scalar.isNullText s.text then pure ()
    else failForm (.wrongValue (.text s.text) CommonTag.null.expected)
  | item => wrongType item "unit"

/-- The tag that an item carries. -/
def tagOf : Item → Option String
  | .scalar s => s.tag
  | .listStart tag => tag
  | .recordStart tag => tag
  | _ => none

/-- The kind of an argument: a text, or the tag of nothing. -/
def argumentKind (path : String) : Read ArgumentKind :=
  value path fun item _ => do
    match ownTag? (tagOf item) with
    | some tag =>
      let kind ← kindOf tag
      nothingUnderTag item
      pure kind
    | none => match item with
      | .scalar s => kindOf s.text
      | item => wrongType item "a YAML tag starting with '!'"

/-- Reads a found value as that of a kind. -/
def fitting (kind : ArgumentKind) (found : Found) : Read Data :=
  match kind.check found with
  | .ok v => pure v.toData
  | .error fault => failForm fault

/-- The value of an argument whose kind is known. -/
def argumentOf (kind : ArgumentKind) (path : String) : Read Data := do
  match kind with
  | .string | .constant => do
    let text ← textAs kind.expected path
    fitting kind (.text text)
  | .integer => do
    let i ← scalarAs .integer kind.expected path fun s =>
      (readScalarInteger? s.toList).filter fitsWord
    fitting kind (.integer i)
  | .float => do
    let x ← scalarAs .float kind.expected path readScalarFloat?
    fitting kind (.float x)
  | .unresolved => value path fun item _ => do
    if (ownTag? (tagOf item)).isSome then failForm (.wrongType .tagged kind.expected)
    match item with
    | .scalar s => fitting kind (← ofExcept s.found)
    | .void => fitting kind .null
    | item => wrongType item kind.expected

/-- Whether a number is larger than any that is kept before its form is known. -/
def isOversized : Found → Bool
  | .integer i => i < -(Int.pow 2 63) || Int.pow 2 64 ≤ i
  | _ => false

/-- The entries of a record of any form. -/
def skipEntries (content : String → Read Found) (path : String) : Nat → Read Unit
  | 0 => pure ()
  | fuel + 1 => do
    match (← peek).1 with
    | .recordEnd =>
      let _ ← next
      pure ()
    | item =>
      let _ ← content path
      let name := match item with
        | .scalar s => s.text
        | _ => "?"
      let _ ← content (fieldPath path name)
      skipEntries content path fuel

/-- What a value of any form shows in a message, read to its end, if it nests less deep than
given. -/
def foundWithin : Nat → String → Read Found
  | 0, _ => throw .endOfStream
  | depth + 1, path => value path fun item mark => do
    if (ownTag? (tagOf item)).isSome then failForm .strayTag
    match item with
    | .scalar s =>
      let found ← ofExcept s.found
      if isOversized found then failForm (.wrongType found "any value")
      pure found
    | .listStart _ =>
      let _ ← nested mark (do itemsOf (foundWithin depth) path (← room) 0 [])
      pure .list
    | .recordStart _ =>
      nested mark (do skipEntries (foundWithin depth) path (← room))
      pure .record
    | .void => pure .null
    | _ => throw .endOfStream

/-- What a value of any form shows in a message, read to its end. -/
def anyFound (path : String) : Read Found := do
  foundWithin ((← read).depth + 1) path

/-- What is expected as the name of a field of an argument. -/
def argumentKeys : String := "\"kind\", \"value\", or other ignored fields"

/-- The fields of an argument that count. -/
inductive ArgumentField where
  | kind (path : String)
  | value (path : String)

/-- The next field of an argument that counts. -/
def argumentField (path : String) : Nat → Read (Option ArgumentField)
  | 0 => pure none
  | fuel + 1 => do
    match ← nextKey argumentKeys path with
    | none => pure none
    | some ("kind", inner) => pure (some (.kind inner))
    | some ("value", inner) => pure (some (.value inner))
    | some _ =>
      skipValue
      argumentField path fuel

/-- The rest of an argument behind its kind and value. -/
def argumentEnd (path : String) (n : Nat) (d : Data) : Read Data := do
  match ← argumentField path n with
  | none => pure d
  | some (.kind _) => failForm (.duplicateField "kind")
  | some (.value _) => failForm (.duplicateField "value")

/-- The fields of an argument in any order. -/
def argumentFields (path : String) : Read Data := do
  let n ← room
  match ← argumentField path n with
  | none => failForm (.missingField "kind")
  | some (.kind inner) =>
    let kind ← argumentKind inner
    match ← argumentField path n with
    | none => match kind with
      | .unresolved => pure ArgumentValue.unresolved.toData
      | _ => failForm (.missingField "value")
    | some (.kind _) => failForm (.duplicateField "kind")
    | some (.value inner) =>
      let d ← argumentOf kind inner
      argumentEnd path n d
  | some (.value inner) =>
    let found ← anyFound inner
    match ← argumentField path n with
    | none => failForm (.missingField "kind")
    | some (.value _) => failForm (.duplicateField "value")
    | some (.kind inner) =>
      let kind ← argumentKind inner
      let d ← fitting kind found
      argumentEnd path n d

/-- An argument. -/
def argumentValue (path : String) : Read Data :=
  withFields Schema.argument.expected path (argumentFields path) (failForm (.missingField "kind"))

/-! ### Tables -/

/-- The entries of a table. -/
def entries (path : String) : Nat → List (String × Data) → Read (List (String × Data))
  | 0, acc => pure acc.reverse
  | fuel + 1, acc => do
    match ← nextKey "a string" path with
    | none => pure acc.reverse
    | some (name, inner) =>
      let text ← textAs "a string" inner
      entries path fuel ((name, .text text) :: acc)

/-- A table. -/
def tableValue (path : String) : Read Data :=
  withFields "a map" path (do
    let es ← entries path (← room) []
    pure (.record es)) (pure (.record []))

/-! ### Any form -/

mutual

/-- The reader of a form. -/
def ofSchema : Schema → String → Read Data
  | .text => fun path => .text <$> textAs "a string" path
  | .path => fun path => .text <$> textAs "path string" path
  | .flag => fun path => .flag <$> scalarAs .flag "a boolean" path fun s => flagWords.lookup s
  | .natural => fun path => scalarAs .integer "usize" path readNatural?
  | .optional content => optionalOf (ofSchema content)
  | .list item => listOf (ofSchema item)
  | .record name fields => recordOf ("struct " ++ name) (fieldReaders fields)
  | .argument => argumentValue
  | .table => tableValue

/-- The readers of the fields of a record. -/
def fieldReaders : List (String × Schema × Bool) → List FieldReader
  | [] => []
  | (name, schema, _) :: fs => ⟨name, ofSchema schema, schema.isOptional⟩ :: fieldReaders fs

end

end Read

/-- Reads data of a form from a YAML text. -/
def read (schema : Schema) (source : String) : Except Error Data := do
  let (document, isOnly) := documentOf source
  let (d, _) ← (Read.ofSchema schema rootPath ⟨document, depthLimit⟩).run ⟨document.items, 0⟩
  match document.fault with
  | some fault => throw (.document fault)
  | none => if isOnly then pure d else throw .moreDocuments

end DocBlocks.Yaml
