import DocBlocks.Format.Yaml.Property

/-
  The tokens of a YAML text.
-/

namespace DocBlocks.Yaml

namespace Scan

/-! ### Single tokens -/

/-- The end of the text. It stands at the front of a line. -/
def streamEnd : Scan Unit := do
  modify fun s =>
    if s.mark.column == 0 then s
    else { s with mark := ⟨s.mark.index, s.mark.line + 1, 0⟩ }
  unrollIndent (-1)
  removeKey
  allowKey false
  pushMark .streamEnd 0
  modify fun s => { s with ended := true }

/-- The mark of a document. -/
def documentMark (form : TokenForm) : Scan Unit := do
  unrollIndent (-1)
  removeKey
  allowKey false
  pushMark form 3

/-- A bracket that opens. -/
def openBracket (form : TokenForm) : Scan Unit := do
  saveKey
  enterFlow
  allowKey true
  pushMark form 1

/-- A bracket that closes. -/
def closeBracket (form : TokenForm) : Scan Unit := do
  removeKey
  leaveFlow
  allowKey false
  pushMark form 1

/-- A mark that opens a block where a key may stand, and nowhere else. -/
def blockMark (opening form : TokenForm) (what : String) : Scan Unit := do
  let s ← get
  if flowLevel s == 0 then
    if !s.keyAllowed then fail none (what ++ " are not allowed in this context")
    rollIndent s.mark.column opening s.mark none
  removeKey
  allowKey (form == .blockEntry || flowLevel s == 0)
  pushMark form 1

/-- The colon between a key and its value. -/
def valueMark : Scan Unit := do
  let s ← get
  match s.keys with
  | key :: keys =>
    if key.possible then
      insertToken key.token ⟨.key, key.mark, key.mark⟩
      rollIndent key.mark.column .blockMappingStart key.mark (some key.token)
      modify fun s => { s with keys := { key with possible := false } :: keys, keyAllowed := false }
    else
      if flowLevel s == 0 then
        if !s.keyAllowed then fail none "mapping values are not allowed in this context"
        rollIndent s.mark.column .blockMappingStart s.mark none
      allowKey (flowLevel s == 0)
  | [] => pure ()
  pushMark .value 1

/-- A token that may be a key. -/
def keyLike (token : Scan Token) : Scan Unit := do
  saveKey
  allowKey false
  let t ← token
  push t

/-- A block of text. -/
def blockText (literal : Bool) : Scan Unit := do
  removeKey
  allowKey true
  let t ← blockScalar literal
  push t

/-- A directive. -/
def directiveLine : Scan Unit := do
  unrollIndent (-1)
  removeKey
  allowKey false
  let t ← directive
  push t

/-- The characters that begin no plain text. -/
def indicators : List Char := "-?:,[]\x7b\x7d#&*!|>'\"%@\x60".toList

/-- Whether a plain text begins with a character. -/
def opensPlain (flow : Bool) (c : Char) (after : Option Char) : Bool :=
  !(isBlank c || isBreak c || indicators.contains c) || (c == '-' && !after.any isBlank) ||
    (!flow && (c == '?' || c == ':') && !isBlankOrGone after)

/-- The token that a character begins. -/
def tokenAt (c : Char) (after : Option Char) (flow : Bool) : Scan Unit := do
  if (← here).column == 0 && c == '%' then directiveLine
  else if ← documentMarkAhead '-' then documentMark .documentStart
  else if ← documentMarkAhead '.' then documentMark .documentEnd
  else if c == '[' then openBracket .flowSequenceStart
  else if c == '{' then openBracket .flowMappingStart
  else if c == ']' then closeBracket .flowSequenceEnd
  else if c == '}' then closeBracket .flowMappingEnd
  else if c == ',' then
    removeKey
    allowKey true
    pushMark .flowEntry 1
  else if c == '-' && isBlankOrGone after then
    blockMark .blockSequenceStart .blockEntry "block sequence entries"
  else if c == '?' && (flow || isBlankOrGone after) then
    blockMark .blockMappingStart .key "mapping keys"
  else if c == ':' && (flow || isBlankOrGone after) then valueMark
  else if c == '*' then keyLike (anchorName true)
  else if c == '&' then keyLike (anchorName false)
  else if c == '!' then keyLike tagName
  else if c == '|' && !flow then blockText true
  else if c == '>' && !flow then blockText false
  else if c == '\'' then keyLike (quotedScalar true)
  else if c == '"' then keyLike (quotedScalar false)
  else if opensPlain flow c after then keyLike plainScalar
  else
    fail (some ("while scanning for the next token", ← here))
      "found character that cannot start any token"

/-- Adds the next token, and those that it brings about. -/
def fetch : Scan Unit := do
  if !(← get).started then
    modify fun s => { s with started := true, keyAllowed := true, keys := [.none] }
    pushMark .streamStart 0
  else
    skipLayout
    dropStaleKeys
    unrollIndent (← here).column
    match ← peek with
    | none => streamEnd
    | some c => tokenAt c (← peekAt 1) (← inFlow)

/-- Whether the first token is missing, or must be held back since it may still be a key. -/
def needsMore : Scan Bool := do
  if (← get).queue.isEmpty then pure true
  else
    dropStaleKeys
    let s ← get
    pure (s.keys.any fun k => k.possible && k.token == s.handedOut)

end Scan

/-- The tokens of a text that can be handed out, and the fault behind them. -/
structure TokenStream where
  tokens : List Token
  fault : Option TextFault

/-- Hands out tokens as soon as they are settled. -/
def handOut : Nat → TokenReader → List Token → TokenStream
  | 0, _, acc => ⟨acc.reverse, none⟩
  | fuel + 1, s, acc =>
    match Scan.needsMore.run s with
    | .error e => ⟨acc.reverse, some e⟩
    | .ok (true, s) =>
      if s.ended then ⟨acc.reverse ++ s.queue, none⟩
      else match Scan.fetch.run s with
        | .ok (_, s) => handOut fuel s acc
        | .error e => ⟨acc.reverse, some e⟩
    | .ok (false, s) =>
      match s.queue with
      | [] => ⟨acc.reverse, none⟩
      | t :: ts => handOut fuel { s with queue := ts, handedOut := s.handedOut + 1 } (t :: acc)

/-- Whether a text may hold a character. -/
def isAllowed (c : Char) : Bool :=
  let n := c.toNat
  n == 0x09 || n == 0x0A || n == 0x0D || (0x20 ≤ n && n ≤ 0x7E) || n == 0x85 ||
    (0xA0 ≤ n && n ≤ 0xFFFD) || 0x10000 ≤ n

/-- The fault of a character that no text may hold, told by its byte offset. -/
def forbiddenFault? (offset : Nat) : List Char → Option TextFault
  | [] => none
  | c :: cs =>
    if isAllowed c then forbiddenFault? (offset + c.utf8Size) cs
    else some ⟨"control characters are not allowed", .start, none, offset⟩

/-- The tokens of a text. -/
def tokensOf (source : String) : TokenStream :=
  let cs := source.toList
  match forbiddenFault? 0 cs with
  | some fault => ⟨[], some fault⟩
  | none =>
    handOut (8 * cs.length + 32) ⟨cs, .start, [], 0, -1, [], false, [], false, false⟩ []

end DocBlocks.Yaml
