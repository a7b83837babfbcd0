import DocBlocks.Format.Yaml.Folding
import DocBlocks.Number.Text

/-
  Anchors, tags and directives of a YAML text.
-/

namespace DocBlocks.Yaml.Scan

/-- The characters of names. -/
def isNameChar (c : Char) : Bool := c.isAlphanum || c == '_' || c == '-'

/-! ### Anchors -/

/-- What may stand right behind the name of an anchor. -/
def endsAnchor (c : Option Char) : Bool :=
  isBlankOrGone c || c.any fun d => "?:,]\x7d%@\x60".toList.contains d

/-- The name of an anchor, or of one that is referred to. -/
def anchorName (referred : Bool) : Scan Token := do
  let start ← here
  skip 1
  let name ← takeWhile isNameChar
  if name.isEmpty || !endsAnchor (← peek) then
    fail (some (if referred then "while scanning an alias" else "while scanning an anchor", start))
      "did not find expected alphabetic or numeric character"
  else
    let text := String.ofList name
    pure ⟨if referred then .reference text else .anchor text, start, ← here⟩

/-! ### Tags -/

/-- The characters of a tag beside those of names. -/
def tagMarks : List Char := ";/?:@&=+$.%!~*'()".toList

/-- The place where a tag is read, in words. -/
abbrev TagContext := Option (String × Mark)

/-- The byte that an escape stands for. -/
def escapedByte? : List Char → Option Nat
  | '%' :: a :: b :: _ => do pure (16 * (← hexValue? a) + (← hexValue? b))
  | _ => none

/-- The number of bytes of a character, told by the first of them. -/
def byteCount? (b : Nat) : Option Nat :=
  if b < 0x80 then some 1
  else if 0xC0 ≤ b && b < 0xE0 then some 2
  else if 0xE0 ≤ b && b < 0xF0 then some 3
  else if 0xF0 ≤ b && b < 0xF8 then some 4
  else none

/-- An escaped byte. -/
def takeEscape (context : TagContext) : Scan Nat := do
  match escapedByte? (← get).rest with
  | some b => pure b
  | none => fail context "did not find URI escaped octet"

/-- The further bytes of a character whose first byte was escaped. -/
def escapedTail (context : TagContext) : Nat → Scan (List UInt8)
  | 0 => pure []
  | n + 1 => do
    let b ← takeEscape context
    if 0x80 ≤ b && b < 0xC0 then
      skip 3
      pure (b.toUInt8 :: (← escapedTail context n))
    else fail context "found an incorrect trailing UTF-8 octet"

/-- The bytes of an escaped character. -/
def escapedBytes (context : TagContext) : Scan (List UInt8) := do
  let b ← takeEscape context
  match byteCount? b with
  | none => fail context "found an incorrect leading UTF-8 octet"
  | some n =>
    skip 3
    pure (b.toUInt8 :: (← escapedTail context (n - 1)))

/-- Whether a tag may hold a character; one that is given in full may hold a few more. -/
def isTagChar (verbatim : Bool) (c : Char) : Bool :=
  isNameChar c || tagMarks.contains c || (verbatim && (c == ',' || c == '[' || c == ']'))

/-- The bytes of a tag. -/
def tagRun (context : TagContext) (verbatim : Bool) : Nat → List UInt8 → Scan (List UInt8)
  | 0, acc => pure acc
  | fuel + 1, acc => do
    match ← peek with
    | some '%' => tagRun context verbatim fuel (acc ++ (← escapedBytes context))
    | some c =>
      if isTagChar verbatim c then
        skip 1
        tagRun context verbatim fuel (acc ++ String.utf8EncodeChar c)
      else pure acc
    | none => pure acc

/-- The rest of a tag behind the characters that were read before. -/
def tagSuffix (context : TagContext) (verbatim : Bool) (front : List Char) : Scan String := do
  let bytes ← tagRun context verbatim ((← get).rest.length + 1)
    (front.flatMap String.utf8EncodeChar)
  pure ((String.fromUTF8? ⟨bytes.toArray⟩).getD "")

/-- A tag that must have characters. -/
def wholeTag (context : TagContext) (verbatim : Bool) : Scan String := do
  let suffix ← tagSuffix context verbatim []
  if suffix.isEmpty then fail context "did not find expected tag URI"
  pure suffix

/-- A tag: in full between angle brackets, with a handle, or by itself. -/
def tagName : Scan Token := do
  let start ← here
  let context := some ("while parsing a tag", start)
  let form ← if (← peekAt 1) == some '<' then do
      skip 2
      let suffix ← wholeTag context true
      if !(← sees '>') then
        fail (some ("while scanning a tag", start)) "did not find the expected '>'"
      skip 1
      pure (TokenForm.tag "" suffix)
    else do
      skip 1
      let name ← takeWhile isNameChar
      if ← sees '!' then
        skip 1
        let suffix ← wholeTag context false
        pure (TokenForm.tag (String.ofList ('!' :: name ++ ['!'])) suffix)
      else
        let suffix ← tagSuffix context false name
        pure (if suffix.isEmpty then TokenForm.tag "" "!" else TokenForm.tag "!" suffix)
  let after ← peek
  if !isBlankOrGone after && !((← inFlow) && after == some ',') then
    fail (some ("while scanning a tag", start)) "did not find expected whitespace or line break"
  pure ⟨form, start, ← here⟩

/-! ### Directives -/

/-- The most digits of a number of a version. -/
def versionDigits : Nat := 9

/-- A number of a version. -/
def versionNumber (context : TagContext) : Scan Nat := do
  let digits := ((← get).rest.takeWhile Char.isDigit).take versionDigits
  skip digits.length
  if digits.isEmpty then fail context "did not find expected version number"
  if (← peek).any Char.isDigit then fail context "found extremely long version number"
  pure ((readDigits? 10 digits).getD 0)

/-- The version that a document says it is written in. -/
def versionDirective (start : Mark) : Scan TokenForm := do
  let context := some ("while scanning a %YAML directive", start)
  let _ ← takeWhile isBlank
  let major ← versionNumber context
  if !(← sees '.') then fail context "did not find expected digit or '.' character"
  skip 1
  let minor ← versionNumber context
  pure (.version major minor)

/-- The handle that a directive explains. -/
def explainedHandle (start : Mark) : Scan (List Char) := do
  if !(← sees '!') then
    fail (some ("while scanning a tag directive", start)) "did not find expected '!'"
  skip 1
  let name ← takeWhile isNameChar
  if ← sees '!' then
    skip 1
    pure ('!' :: name ++ ['!'])
  else if name.isEmpty then pure ['!']
  else fail (some ("while parsing a tag directive", start)) "did not find expected '!'"

/-- A handle for tags with what it stands for. -/
def tagDirective (start : Mark) : Scan TokenForm := do
  let context := some ("while scanning a %TAG directive", start)
  let _ ← takeWhile isBlank
  let handle ← explainedHandle start
  let blanks ← takeWhile isBlank
  if blanks.isEmpty then fail context "did not find expected whitespace"
  let meaning ← wholeTag (some ("while parsing a %TAG directive", start)) true
  if !isBlankOrGone (← peek) then fail context "did not find expected whitespace or line break"
  pure (.tagHandle (String.ofList handle) meaning)

/-- A directive. -/
def directive : Scan Token := do
  let start ← here
  let context := some ("while scanning a directive", start)
  skip 1
  let name ← takeWhile isNameChar
  if name.isEmpty then fail context "could not find expected directive name"
  if !isBlankOrGone (← peek) then fail context "found unexpected non-alphabetical character"
  let form ← match String.ofList name with
    | "YAML" => versionDirective start
    | "TAG" => tagDirective start
    | _ => fail context "found unknown directive name"
  let stop ← here
  let _ ← takeWhile isBlank
  if ← sees '#' then
    let _ ← takeWhile fun c => !isBreak c
  if !isBreakOrGone (← peek) then fail context "did not find expected comment or line break"
  let _ ← takeBreak
  pure ⟨form, start, stop⟩

end DocBlocks.Yaml.Scan
