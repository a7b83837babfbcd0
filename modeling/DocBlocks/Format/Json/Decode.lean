import DocBlocks.Format.Json.Read

/-
  Data of a known form from JSON.
-/

namespace DocBlocks.Json

namespace Read

/-! ### Single values -/

/-- A value that a given character begins, or a fault. -/
def textAs (expected : String) : Read Data := placed do
  if (← valueStart) = '"' then
    eat
    .text <$> textBody
  else wrongType expected

/-- A truth value. -/
def flagValue (expected : String) : Read Data := placed do
  let c ← valueStart
  if c = 't' then
    eat
    word ['r', 'u', 'e']
    pure (.flag true)
  else if c = 'f' then
    eat
    word ['a', 'l', 's', 'e']
    pure (.flag false)
  else wrongType expected

/-- A number without a sign. -/
def naturalValue (expected : String) : Read Data := placed do
  let c ← valueStart
  if opensNumber c then
    match ← signedNumber c with
    | .whole (.ofNat n) => pure (.integer n)
    | .whole i => failForm (.wrongValue (.integer i) expected)
    | .float x => failForm (.wrongType (.float x) expected)
  else wrongType expected

/-- A value that may be absent. -/
def optionalOf (content : Read Data) : Read Data := do
  match ← skipLayout with
  | some 'n' =>
    eat
    word ['u', 'l', 'l']
    pure .null
  | _ => content

/-! ### Lists -/

/-- The items of a list. -/
def itemsOf (item : Read Data) : Nat → Bool → List Data → Read (List Data)
  | 0, _, acc => pure acc.reverse
  | fuel + 1, first, acc => do
    if ← moreItems first then
      let d ← item
      itemsOf item fuel false (d :: acc)
    else pure acc.reverse

/-- A list. -/
def listOf (expected : String) (item : Read Data) : Read Data := placed do
  if (← valueStart) = '[' then
    .list <$> framed (itemsOf item ((← get).rest.length + 1) true []) endList
  else wrongType expected

/-! ### Records -/

/-- A field with its reader. -/
structure FieldReader where
  name : String
  read : Read Data
  /-- Whether the field may be missing. -/
  isOptional : Bool
  /-- Whether the field may be left out of a list of fields. -/
  isSkippable : Bool

/-- The fields of a record by name, and what was read before them. -/
def namedFields (fields : List FieldReader) :
    Nat → Bool → List (String × Data) → Read (List (String × Data))
  | 0, _, acc => pure acc
  | fuel + 1, first, acc => do
    match ← fieldName first with
    | none => pure acc
    | some name =>
      match fields.find? (·.name == name) with
      | none =>
        colon
        skipValue
        namedFields fields fuel false acc
      | some field =>
        if (acc.lookup name).isSome then failForm (.duplicateField name)
        else
          colon
          let d ← field.read
          namedFields fields fuel false ((name, d) :: acc)

/-- The fields of a record in order, out of those that were read. -/
def arranged (fields : List FieldReader) (given : List (String × Data)) :
    Read (List (String × Data)) :=
  fields.mapM fun f =>
    match given.lookup f.name with
    | some d => pure (f.name, d)
    | none => if f.isOptional then pure (f.name, .null) else failForm (.missingField f.name)

/-- The fields of a record as a list. -/
def listedFields (expected : String) (index : Nat) : List FieldReader → Read (List (String × Data))
  | [] => pure []
  | f :: fs => do
    if ← moreItems (index == 0) then
      let d ← f.read
      let ds ← listedFields expected (index + 1) fs
      pure ((f.name, d) :: ds)
    else if f.isSkippable then
      let ds ← listedFields expected (index + 1) fs
      pure ((f.name, .null) :: ds)
    else failForm (.wrongLength index expected)

/-- A record. -/
def recordOf (expected : String) (fields : List FieldReader) : Read Data := placed do
  let c ← valueStart
  if c = '[' then
    let counted := expected ++ " with " ++ toString fields.length ++ " elements"
    .record <$> framed (listedFields counted 0 fields) endList
  else if c = '{' then
    let n := (← get).rest.length + 1
    .record <$> framed (do
      let given ← namedFields fields n true []
      arranged fields given) endRecord
  else wrongType expected

/-! ### Arguments -/

/-- A tag given as a text, or the fault that it is none. -/
def kindText : Read ArgumentKind := placed do
  if (← valueStart) = '"' then
    eat
    let tag ← textBody
    match ArgumentKind.tags.lookup tag with
    | some kind => pure kind
    | none => failForm (.unknownTag tag)
  else wrongType "variant identifier"

/-- The kind of an argument: a tag, or a record with a tag and nothing. -/
def argumentKind : Read ArgumentKind := do
  match ← skipLayout with
  | some '"' => kindText
  | some '{' =>
    eat
    let kind ← kindText
    colon
    placed do
      if (← valueStart) = 'n' then
        eat
        word ['u', 'l', 'l']
      else wrongType "unit"
    match ← skipLayout with
    | some '}' =>
      eat
      pure kind
    | some _ => failHere .expectedValue
    | none => failHere .endInRecord
  | some _ => failAhead .expectedValue
  | none => failAhead .endInValue

/-- A value that was read without its kind being known, or the fault that it does not fit. -/
def fitting (kind : ArgumentKind) (found : Found) : Read Data :=
  match kind.check found with
  | .ok v => pure v.toData
  | .error fault => failForm fault

/-- The value of an argument whose kind is known. -/
def argumentOf (kind : ArgumentKind) : Read Data := placed do
  let c ← valueStart
  match kind with
  | .unresolved =>
    if c = '[' then
      framed (failForm (.wrongType .list kind.expected)) endList
    else if c = '{' then
      framed (failForm (.wrongType .record kind.expected)) endRecord
    else
      let found ← foundAhead
      fitting kind found
  | .string | .constant =>
    if c = '"' then
      let found ← foundAhead
      fitting kind found
    else wrongType kind.expected
  | .integer | .float =>
    if opensNumber c then
      let found ← foundAhead
      fitting kind found
    else wrongType kind.expected

/-- The fields of an argument that count. -/
inductive ArgumentField where
  | kind
  | value

/-- The next field of an argument that counts. -/
def argumentField : Nat → Bool → Read (Option ArgumentField)
  | 0, _ => pure none
  | fuel + 1, first => do
    match ← fieldName first with
    | none => pure none
    | some "kind" => pure (some .kind)
    | some "value" => pure (some .value)
    | some _ =>
      colon
      skipValue
      argumentField fuel false

/-- What a missing value means for a kind. -/
def withoutValue (kind : ArgumentKind) : Read Data :=
  match kind with
  | .unresolved => pure ArgumentValue.unresolved.toData
  | _ => failForm (.missingField "value")

/-- The rest of an argument behind its kind and value. -/
def argumentEnd (n : Nat) (d : Data) : Read Data := do
  match ← argumentField n false with
  | none => pure d
  | some .kind => failForm (.duplicateField "kind")
  | some .value => failForm (.duplicateField "value")

/-- The fields of an argument in any order. -/
def argumentFields (n : Nat) : Read Data := do
  match ← argumentField n true with
  | none => failForm (.missingField "kind")
  | some .kind =>
    colon
    let kind ← argumentKind
    match ← argumentField n false with
    | none => withoutValue kind
    | some .kind => failForm (.duplicateField "kind")
    | some .value =>
      colon
      let d ← argumentOf kind
      argumentEnd n d
  | some .value =>
    colon
    let found ← anyFound
    match ← argumentField n false with
    | none => failForm (.missingField "kind")
    | some .value => failForm (.duplicateField "value")
    | some .kind =>
      colon
      let kind ← argumentKind
      let d ← fitting kind found
      argumentEnd n d

/-- The kind and the value of an argument as a list. -/
def argumentList (expected : String) : Read Data := do
  if ← moreItems true then
    let kind ← argumentKind
    if ← moreItems false then argumentOf kind
    else failForm (.wrongLength 1 expected)
  else failForm (.wrongLength 0 expected)

/-- An argument. -/
def argumentValue : Read Data := placed do
  let expected := Schema.argument.expected
  let c ← valueStart
  if c = '[' then
    framed (argumentList expected) endList
  else if c = '{' then
    framed (argumentFields ((← get).rest.length + 1)) endRecord
  else wrongType expected

/-! ### Tables -/

/-- The entries of a table. -/
def entries : Nat → Bool → List (String × Data) → Read (List (String × Data))
  | 0, _, acc => pure acc.reverse
  | fuel + 1, first, acc => do
    match ← fieldName first with
    | none => pure acc.reverse
    | some name =>
      colon
      let d ← textAs "a string"
      entries fuel false ((name, d) :: acc)

/-- A table. -/
def tableValue : Read Data := placed do
  if (← valueStart) = '{' then
    .record <$> framed (entries ((← get).rest.length + 1) true []) endRecord
  else wrongType "a map"

/-! ### Any form -/

mutual

/-- The reader of a form. -/
def ofSchema : Schema → Read Data
  | .text => textAs "a string"
  | .path => textAs "path string"
  | .flag => flagValue "a boolean"
  | .natural => naturalValue "usize"
  | .optional content => optionalOf (ofSchema content)
  | .list item => listOf "a sequence" (ofSchema item)
  | .record name fields => recordOf ("struct " ++ name) (fieldReaders fields)
  | .argument => argumentValue
  | .table => tableValue

/-- The readers of the fields of a record. -/
def fieldReaders : List (String × Schema × Bool) → List FieldReader
  | [] => []
  | (name, schema, skippable) :: fs =>
    ⟨name, ofSchema schema, schema.isOptional, skippable⟩ :: fieldReaders fs

end

/-- A whole text. -/
def wholeText (p : Read Data) : Read Data := do
  let d ← p
  match ← skipLayout with
  | none => pure d
  | some _ => failAhead .trailingCharacters

end Read

/-! ### Places -/

/-- The bytes of a text in front of a place. -/
def bytesBefore (source : String) (place : Nat) : List UInt8 :=
  source.toUTF8.toList.take place

/-- Gives a fault its line and column. -/
def locate (source : String) (cause : Cause) (place : Nat) : Error :=
  let before := bytesBefore source place
  let lineFeed := '\n'.toNat.toUInt8
  ⟨cause, 1 + before.count lineFeed, (before.reverse.takeWhile (· != lineFeed)).length⟩

/-- Reads data of a form from a JSON text. -/
def read (schema : Schema) (source : String) : Except Error Data :=
  match (Read.wholeText (Read.ofSchema schema)).run (.start source) with
  | (.ok d, _) => .ok d
  | (.error e, s) => .error (locate source e.cause (e.place.getD s.passed))

end DocBlocks.Json
