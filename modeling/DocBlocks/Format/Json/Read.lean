import DocBlocks.Format.Json.Error

/-
  Reading data of a known form from a JSON text.

  The reader goes through the text once. A fault is placed where the reader stands, where it looks,
  or, if it is one of the data and not of the text, at the end of the innermost value around it.
-/

namespace DocBlocks.Json

/-- Where a reader stands. -/
structure State where
  /-- The text that is still to be read. -/
  rest : List Char
  /-- The number of bytes in front of it. -/
  passed : Nat
  /-- How many more lists and records may be opened inside each other. -/
  depth : Nat

/-- How many lists and records may be open at once. -/
def depthLimit : Nat := 127

/-- The front of a text. -/
def State.start (source : String) : State := ⟨source.toList, 0, depthLimit⟩

/-- A fault that may not have its place yet. -/
structure Failure where
  cause : Cause
  place : Option Nat

/-- A reader. It keeps its place when it fails. -/
abbrev Read := ExceptT Failure (StateM State)

namespace Read

/-! ### Characters -/

/-- The next character. -/
def peek : Read (Option Char) := do
  pure (← get).rest.head?

/-- Passes the next character. -/
def eat : Read Unit :=
  modify fun s => match s.rest with
    | c :: cs => { s with rest := cs, passed := s.passed + c.utf8Size }
    | [] => s

/-- Fails where the reader stands. -/
def failHere {α : Type} (cause : Cause) : Read α := do
  throw ⟨cause, some (← get).passed⟩

/-- Fails at the character that the reader looks at. -/
def failAhead {α : Type} (cause : Cause) : Read α := do
  let s ← get
  throw ⟨cause, some (if s.rest.isEmpty then s.passed else s.passed + 1)⟩

/-- Fails with a fault in the form of data, which gets its place later. -/
def failForm {α : Type} (fault : FormFault) : Read α := throw ⟨.form fault, none⟩

/-- Gives a fault without a place the one where the reader stands. -/
def placed {α : Type} (p : Read α) : Read α :=
  tryCatch p fun e => do
    throw ⟨e.cause, some (e.place.getD (← get).passed)⟩

/-- Whether a character is layout. -/
def isLayout (c : Char) : Bool := c == ' ' || c == '\n' || c == '\t' || c == '\r'

/-- The bytes of layout characters. -/
def skipLayout : Read (Option Char) := do
  modify fun s =>
    let blanks := s.rest.takeWhile isLayout
    { s with rest := s.rest.drop blanks.length, passed := s.passed + blanks.length }
  peek

/-- The next character behind layout, which must be there in place of a value. -/
def valueStart : Read Char := do
  match ← skipLayout with
  | some c => pure c
  | none => failAhead .endInValue

/-- Passes the rest of a word. -/
def word : List Char → Read Unit
  | [] => pure ()
  | w :: ws => do
    match ← peek with
    | none => failHere .endInValue
    | some c =>
      if c = w then
        eat
        word ws
      else failAhead .expectedWord

/-! ### Texts -/

/-- Passes bytes, of which a last character may be divided. -/
def skipBytes (n : Nat) : Read Unit :=
  modify fun s => { s with rest := s.rest.drop n, passed := s.passed + n }

/-- Reads four hexadecimal digits. -/
def fourDigits : Read Nat := do
  let s ← get
  let bytes := byteLength s.rest
  if bytes < 4 then
    set { s with rest := [], passed := s.passed + bytes }
    failHere .endInString
  else
    skipBytes 4
    match readDigits? 16 (s.rest.take 4) with
    | some n => pure n
    | none => failHere .invalidEscape

/-- The character that must follow inside a text. -/
def insideText : Read Char := do
  match ← peek with
  | some c => pure c
  | none => failHere .endInString

/-- Whether a number belongs to the first half of a pair. -/
def isLeading (n : Nat) : Bool := 0xD800 ≤ n && n ≤ 0xDBFF

/-- Whether a number belongs to the second half of a pair. -/
def isTrailing (n : Nat) : Bool := 0xDC00 ≤ n && n ≤ 0xDFFF

/-- Passes a given character of an escape. -/
def escapePart (c : Char) : Read Unit := do
  if (← insideText) = c then eat else failAhead .endOfEscape

/-- Reads an escape by number. Characters beyond sixteen bits are written as a pair. -/
def numberEscape : Read Char := do
  let n ← fourDigits
  if isTrailing n then failHere .loneSurrogate
  else if isLeading n then
    escapePart '\\'
    escapePart 'u'
    let m ← fourDigits
    if isTrailing m then pure (Char.ofNat ((n - 0xD800) * 0x400 + (m - 0xDC00) + 0x10000))
    else failHere .loneSurrogate
  else pure (Char.ofNat n)

/-- The characters behind a backslash with what they stand for. -/
def plainEscapes : List (Char × Char) :=
  [('"', '"'), ('\\', '\\'), ('/', '/'), ('b', '\x08'), ('f', '\x0c'), ('n', '\n'), ('r', '\r'),
   ('t', '\t')]

/-- Reads what stands behind a backslash. -/
def escape : Read Char := do
  let c ← insideText
  if c = 'u' then
    eat
    numberEscape
  else match plainEscapes.lookup c with
    | some d =>
      eat
      pure d
    | none => failAhead .invalidEscape

/-- Reads a text behind its opening quote. -/
def textWithin : Nat → List Char → Read String
  | 0, acc => pure (String.ofList acc.reverse)
  | fuel + 1, acc => do
    let c ← insideText
    if c = '"' then
      eat
      pure (String.ofList acc.reverse)
    else if c = '\\' then
      eat
      let d ← escape
      textWithin fuel (d :: acc)
    else if c.toNat < 0x20 then
      eat
      failHere .controlCharacter
    else
      eat
      textWithin fuel (c :: acc)

/-- Reads a text behind its opening quote. -/
def textBody : Read String := do
  textWithin ((← get).rest.length + 1) []

/-! ### Numbers -/

/-- A number as it is written: a whole one that fits 64 bits, or any other. -/
inductive Number where
  | whole (value : Int)
  | float (value : Binary64)

/-- What a number is when something else was expected. -/
def Number.found : Number → Found
  | whole i => .integer i
  | float x => .float x

/-- The largest exponent of a power of ten that is finite. -/
def largestPower : Nat := 308

/-- Scales whole digits by a power of ten, in steps that stay finite. -/
def scaled : Nat → Binary64 → Int → Read Binary64
  | 0, x, _ => pure x
  | fuel + 1, x, e => do
    if e.natAbs ≤ largestPower then
      if 0 ≤ e then
        match x.timesPowerOfTen e.toNat with
        | .infinite _ => failHere .numberOutOfRange
        | y => pure y
      else pure (x.dividedByPowerOfTen (-e).toNat)
    else if x.isZero then pure x
    else if 0 ≤ e then failHere .numberOutOfRange
    else scaled fuel (x.dividedByPowerOfTen largestPower) (e + largestPower)

/-- The number with the given digits and exponent. -/
def ofParts (negative : Bool) (digits : Nat) (exponent : Int) : Read Binary64 := do
  let x ← scaled (exponent.natAbs + 1) (Binary64.ofDecimal false digits 0) exponent
  pure (if negative then x.neg else x)

/-- The digits that follow. -/
def digitRun : Read (List Char) := do
  let ds := (← get).rest.takeWhile Char.isDigit
  skipBytes ds.length
  pure ds

/-- The largest whole number of 64 bits. -/
def largestWhole : Nat := Nat.pow 2 64 - 1

/-- Adds digits to a whole number as long as it fits 64 bits, and counts those it took. -/
def addDigits (n count : Nat) : List Char → Nat × Nat
  | [] => (n, count)
  | d :: ds =>
    let m := 10 * n + digitValue d
    if largestWhole < m then (n, count) else addDigits m (count + 1) ds

/-- The largest exponent that is counted. -/
def largestExponent : Nat := Nat.pow 2 31 - 1

/-- Reads an exponent behind its mark. -/
def exponentPart (negative : Bool) (digits : Nat) (exponent : Int) : Read Binary64 := do
  eat
  let sign ← peek
  if sign == some '+' || sign == some '-' then eat
  match ← peek with
  | none => failHere .endInValue
  | some d =>
    if !d.isDigit then failAhead .invalidNumber
    else
      eat
      let start ← get
      let ds ← digitRun
      let e := decimalValue (d :: ds)
      if largestExponent < e then
        if digits != 0 && sign != some '-' then
          let fitting := (List.range (ds.length + 1)).find? fun k =>
            largestExponent < decimalValue (d :: ds.take k)
          set { start with passed := start.passed + fitting.getD 0 }
          failHere .numberOutOfRange
        else pure (.zero negative)
      else ofParts negative digits (if sign == some '-' then exponent - e else exponent + e)

/-- Reads what follows the whole digits of a number that is no whole one. -/
def fractionPart (negative : Bool) (digits : Nat) (exponent : Int) : Read Binary64 := do
  eat
  let ds ← digitRun
  if ds.isEmpty then
    match ← peek with
    | some _ => failAhead .invalidNumber
    | none => failAhead .endInValue
  else
    let (n, count) := addDigits digits 0 ds
    let e := exponent - count
    match ← peek with
    | some 'e' => exponentPart negative n e
    | some 'E' => exponentPart negative n e
    | _ => ofParts negative n e

/-- Reads the whole digits of a number behind the first one. A zero stands alone. -/
def furtherDigits (first : Char) : Read (List Char) := do
  if first = '0' then
    if (← peek).any Char.isDigit then failAhead .invalidNumber else pure []
  else digitRun

/-- Reads what follows the whole digits of a number, some of which may have been dropped. -/
def numberEnd (negative : Bool) (n dropped : Nat) : Read Number := do
  let after ← peek
  if after == some '.' then .float <$> fractionPart negative n dropped
  else if after == some 'e' || after == some 'E' then .float <$> exponentPart negative n dropped
  else if dropped != 0 then .float <$> ofParts negative n dropped
  else if !negative then pure (.whole n)
  else if n == 0 || Nat.pow 2 63 < n then pure (.float (Binary64.ofDecimal true n 0))
  else pure (.whole (-(n : Int)))

/-- Reads a number behind its sign. -/
def number (negative : Bool) : Read Number := do
  match ← peek with
  | none => failHere .endInValue
  | some d =>
    if !d.isDigit then failAhead .invalidNumber
    else
      eat
      let ds ← furtherDigits d
      let (n, count) := addDigits (digitValue d) 0 ds
      numberEnd negative n (ds.length - count)

/-- Reads a number with its sign. -/
def signedNumber (first : Char) : Read Number := do
  if first = '-' then
    eat
    number true
  else number false

/-- Whether a character begins a number. -/
def opensNumber (c : Char) : Bool := c == '-' || c.isDigit

/-! ### Values of no interest -/

/-- Passes a text behind its opening quote. -/
def skipTextWithin : Nat → Read Unit
  | 0 => pure ()
  | fuel + 1 => do
    let c ← insideText
    if c = '"' then eat
    else if c = '\\' then
      eat
      let d ← insideText
      if d = 'u' then
        eat
        let _ ← fourDigits
        skipTextWithin fuel
      else if (plainEscapes.lookup d).isSome then
        eat
        skipTextWithin fuel
      else failAhead .invalidEscape
    else if c.toNat < 0x20 then failHere .controlCharacter
    else
      eat
      skipTextWithin fuel

/-- Passes a text behind its opening quote. -/
def skipText : Read Unit := do
  skipTextWithin ((← get).rest.length + 1)

/-- Passes a number behind its sign without a look at its size. -/
def skipNumber : Read Unit := do
  match ← peek with
  | none => failHere .invalidNumber
  | some d =>
    if !d.isDigit then failAhead .invalidNumber
    else
      eat
      if d = '0' then
        if (← peek).any Char.isDigit then failAhead .invalidNumber
      else
        let _ ← digitRun
      if (← peek) == some '.' then
        eat
        let ds ← digitRun
        if ds.isEmpty then failAhead .invalidNumber
      let after ← peek
      if after == some 'e' || after == some 'E' then
        eat
        let sign ← peek
        if sign == some '+' || sign == some '-' then eat
        let ds ← digitRun
        if ds.isEmpty then failAhead .invalidNumber

/-- Passes what is no list and no record, and tells whether it was that. -/
def skipPlain (c : Char) : Read Bool := do
  if c = 'n' then
    eat
    word ['u', 'l', 'l']
    pure true
  else if c = 't' then
    eat
    word ['r', 'u', 'e']
    pure true
  else if c = 'f' then
    eat
    word ['a', 'l', 's', 'e']
    pure true
  else if c = '-' then
    eat
    skipNumber
    pure true
  else if c.isDigit then
    skipNumber
    pure true
  else if c = '"' then
    eat
    skipText
    pure true
  else if c = '[' || c = '{' then
    eat
    pure false
  else failAhead .expectedValue

/-- Leaves the lists and records that end here. The flag says whether an item came before. The
answer is what the reader is still in, innermost first. -/
def leave : Nat → Bool → List Char → Read (List Char)
  | 0, _, frames => pure frames
  | _, _, [] => pure []
  | fuel + 1, afterItem, frame :: frames => do
    match ← skipLayout with
    | none => failAhead (if frame = '[' then .endInList else .endInRecord)
    | some c =>
      if c = ',' && afterItem then
        eat
        pure (frame :: frames)
      else if (c = ']' && frame = '[') || (c = '}' && frame = '{') then
        eat
        leave fuel true frames
      else if afterItem then
        failAhead (if frame = '[' then .expectedListEnd else .expectedRecordEnd)
      else pure (frame :: frames)

/-- Passes the name in front of a value in a record. -/
def skipKey : Read Unit := do
  match ← skipLayout with
  | some '"' => eat
  | some _ => failAhead .keyNotString
  | none => failAhead .endInRecord
  skipText
  match ← skipLayout with
  | some ':' => eat
  | some _ => failAhead .expectedColon
  | none => failAhead .endInRecord

/-- Passes a value inside the given lists and records. -/
def skipWithin : Nat → List Char → Read Unit
  | 0, _ => pure ()
  | fuel + 1, frames => do
    let c ← valueStart
    let plain ← skipPlain c
    let frames ← leave (fuel + 1) plain (if plain then frames else c :: frames)
    match frames with
    | [] => pure ()
    | frame :: _ => do
      if frame = '{' then skipKey
      skipWithin fuel frames

/-- Passes a value of any form. -/
def skipValue : Read Unit := do
  skipWithin ((← get).rest.length + 1) []

/-! ### Faults of form -/

/-- Reads what is there in place of something else, as far as a message shows it. -/
def foundAhead : Read Found := do
  match ← peek with
  | some 'n' =>
    eat
    word ['u', 'l', 'l']
    pure .null
  | some 't' =>
    eat
    word ['r', 'u', 'e']
    pure (.flag true)
  | some 'f' =>
    eat
    word ['a', 'l', 's', 'e']
    pure (.flag false)
  | some '"' =>
    eat
    .text <$> textBody
  | some '[' => pure .list
  | some '{' => pure .record
  | some c => if opensNumber c then Number.found <$> signedNumber c else failAhead .expectedValue
  | none => failAhead .expectedValue

/-- Fails since something else was expected. -/
def wrongType {α : Type} (expected : String) : Read α := do
  let found ← foundAhead
  placed (failForm (.wrongType found expected))

/-! ### Lists and records -/

/-- Passes the bracket of a list or record, runs a reader of the inside, and then what ends it. The
end is looked at also when the inside is at fault, since this may move the place of the fault. -/
def framed {α : Type} (inside : Read α) (finish : Read Unit) : Read α := do
  let depth := (← get).depth
  if depth = 0 then failAhead .tooDeep
  else
    modify fun s => { s with depth := depth - 1 }
    eat
    match ← tryCatch (Except.ok <$> inside) (fun e => pure (Except.error e)) with
    | .ok a =>
      finish
      modify fun s => { s with depth := depth }
      pure a
    | .error e =>
      tryCatch finish fun _ => pure ()
      throw e

/-- The end of a list. -/
def endList : Read Unit := do
  match ← skipLayout with
  | some ']' => eat
  | some ',' =>
    eat
    match ← skipLayout with
    | some ']' => failAhead .trailingComma
    | _ => failAhead .trailingCharacters
  | some _ => failAhead .trailingCharacters
  | none => failAhead .endInList

/-- The end of a record. -/
def endRecord : Read Unit := do
  match ← skipLayout with
  | some '}' => eat
  | some ',' => failAhead .trailingComma
  | some _ => failAhead .trailingCharacters
  | none => failAhead .endInRecord

/-- Whether another item follows in a list. -/
def moreItems (first : Bool) : Read Bool := do
  match ← skipLayout with
  | some ']' => pure false
  | some c =>
    if c = ',' && !first then
      eat
      match ← skipLayout with
      | some ']' => failAhead .trailingComma
      | some _ => pure true
      | none => failAhead .endInValue
    else if first then pure true
    else failAhead .expectedListEnd
  | none => failAhead .endInList

/-- Whether another field follows in a record. Its name stands at the reader's place. -/
def moreFields (first : Bool) : Read Bool := do
  match ← skipLayout with
  | some '}' => pure false
  | some c =>
    if c = ',' && !first then
      eat
      match ← skipLayout with
      | some '"' => pure true
      | some '}' => failAhead .trailingComma
      | some _ => failAhead .keyNotString
      | none => failAhead .endInValue
    else if first then if c = '"' then pure true else failAhead .keyNotString
    else failAhead .expectedRecordEnd
  | none => failAhead .endInRecord

/-- The name of the next field. -/
def fieldName (first : Bool) : Read (Option String) := do
  if ← moreFields first then
    eat
    some <$> textBody
  else pure none

/-- The colon between a name and its value. -/
def colon : Read Unit := do
  match ← skipLayout with
  | some ':' => eat
  | some _ => failAhead .expectedColon
  | none => failAhead .endInRecord

/-! ### Any value -/

/-- What a value of any form shows in a message, read to its end, if it nests less deep than
given. -/
def foundWithin : Nat → Read Found
  | 0 => failAhead .tooDeep
  | depth + 1 => do
    let c ← valueStart
    if c = '[' then
      framed (items depth ((← get).rest.length + 1) true) endList
      pure .list
    else if c = '{' then
      framed (fields depth ((← get).rest.length + 1) true) endRecord
      pure .record
    else foundAhead
where
  /-- Reads the items of a list. -/
  items (depth : Nat) : Nat → Bool → Read Unit
    | 0, _ => pure ()
    | fuel + 1, first => do
      if ← moreItems first then
        let _ ← foundWithin depth
        items depth fuel false
  /-- Reads the fields of a record. -/
  fields (depth : Nat) : Nat → Bool → Read Unit
    | 0, _ => pure ()
    | fuel + 1, first => do
      match ← fieldName first with
      | none => pure ()
      | some _ =>
        colon
        let _ ← foundWithin depth
        fields depth fuel false

/-- What a value of any form shows in a message, read to its end. -/
def anyFound : Read Found := do
  foundWithin ((← get).depth + 1)

end Read

end DocBlocks.Json
