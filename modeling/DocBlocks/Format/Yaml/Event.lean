import DocBlocks.Format.Yaml.Stream

/-
  Events of a YAML text: its values in order, with the ends of lists and records.
-/

namespace DocBlocks.Yaml

/-- What an event says. -/
inductive EventForm where
  | streamEnd
  | documentStart
  | documentEnd
  | reference (name : String)
  | scalar (anchor tag : Option String) (text : String) (style : ScalarStyle)
  | sequenceStart (anchor tag : Option String)
  | sequenceEnd
  | mappingStart (anchor tag : Option String)
  | mappingEnd
  deriving DecidableEq, Repr

/-- An event with its place. -/
structure Event where
  form : EventForm
  mark : Mark
  deriving DecidableEq, Repr

/-- What the reader of events is waiting for. -/
inductive Awaiting where
  | streamStart
  | documentStart (implicit : Bool)
  | documentContent
  | documentEnd
  | blockNode
  | blockSequenceEntry (first : Bool)
  | indentlessEntry
  | blockMappingKey (first : Bool)
  | blockMappingValue
  | flowSequenceEntry (first : Bool)
  | flowPairKey
  | flowPairValue
  | flowPairEnd
  | flowMappingKey (first : Bool)
  | flowMappingValue (empty : Bool)
  | nothing
  deriving DecidableEq, Repr

/-- The state of the reader of events. -/
structure EventReader where
  tokens : List Token
  /-- The fault behind the last token. -/
  fault : Option TextFault
  awaiting : Awaiting
  stack : List Awaiting
  marks : List Mark
  handles : List (String × String)

/-- A step of the reader of events. -/
abbrev ReadEvent := StateT EventReader (Except TextFault)

namespace ReadEvent

/-- The next token. -/
def peek : ReadEvent Token := do
  let s ← get
  match s.tokens, s.fault with
  | t :: _, _ => pure t
  | [], some e => throw e
  | [], none => pure ⟨.streamEnd, .start, .start⟩

/-- Passes the next token. -/
def skip : ReadEvent Unit :=
  modify fun s => { s with tokens := s.tokens.drop 1 }

/-- Sets what comes next. -/
def await (a : Awaiting) : ReadEvent Unit :=
  modify fun s => { s with awaiting := a }

/-- Sets what comes after what comes next. -/
def pushAwaiting (a : Awaiting) : ReadEvent Unit :=
  modify fun s => { s with stack := a :: s.stack }

/-- Goes back to what was waited for around this. -/
def popAwaiting : ReadEvent Unit :=
  modify fun s => { s with awaiting := s.stack.headD .nothing, stack := s.stack.drop 1 }

/-- Remembers where a list or record began. -/
def pushMark (m : Mark) : ReadEvent Unit :=
  modify fun s => { s with marks := m :: s.marks }

/-- Forgets where a list or record began, and tells it. -/
def popMark : ReadEvent Mark := do
  let s ← get
  set { s with marks := s.marks.drop 1 }
  pure (s.marks.headD .start)

/-- Fails at a place. -/
def fail {α : Type} (context : Option (String × Mark)) (problem : String) (mark : Mark) :
    ReadEvent α :=
  throw ⟨problem, mark, context, 0⟩

/-- A value that is left out. -/
def emptyScalar (mark : Mark) : ReadEvent Event :=
  pure ⟨.scalar none none "" .plain, mark⟩

/-- The handles that every document knows. -/
def standardHandles : List (String × String) := [("!", "!"), ("!!", "tag:yaml.org,2002:")]

/-- The anchor, the tag and the place of the tag in front of a value. -/
structure Properties where
  anchor : Option String
  tag : Option (String × String)
  tagMark : Mark

/-- Reads the anchor and the tag in front of a value, in any order. -/
def properties : ReadEvent Properties := do
  let t ← peek
  match t.form with
  | .anchor name =>
    skip
    let t ← peek
    match t.form with
    | .tag handle suffix =>
      skip
      pure ⟨some name, some (handle, suffix), t.start⟩
    | _ => pure ⟨some name, none, t.start⟩
  | .tag handle suffix =>
    skip
    let u ← peek
    match u.form with
    | .anchor name =>
      skip
      pure ⟨some name, some (handle, suffix), t.start⟩
    | _ => pure ⟨none, some (handle, suffix), t.start⟩
  | _ => pure ⟨none, none, t.start⟩

/-- The full text of a tag. -/
def resolveTag (start : Mark) (p : Properties) : ReadEvent (Option String) := do
  match p.tag with
  | none => pure none
  | some (handle, suffix) =>
    if handle.isEmpty then pure (some suffix)
    else match ((← get).handles ++ standardHandles).lookup handle with
      | some meaning => pure (some (meaning ++ suffix))
      | none =>
        fail (some ("while parsing a node", start)) "found undefined tag handle" p.tagMark

/-- A value. -/
def node (block indentless : Bool) : ReadEvent Event := do
  let t ← peek
  match t.form with
  | .reference name =>
    popAwaiting
    skip
    pure ⟨.reference name, t.start⟩
  | _ =>
    let start := t.start
    let p ← properties
    let tag ← resolveTag start p
    let t ← peek
    match t.form with
    | .blockEntry =>
      if indentless then
        await .indentlessEntry
        pure ⟨.sequenceStart p.anchor tag, start⟩
      else without p tag start t
    | .scalar text style =>
      popAwaiting
      skip
      pure ⟨.scalar p.anchor (tag.filter (· != "!")) text style, start⟩
    | .flowSequenceStart =>
      await (.flowSequenceEntry true)
      pure ⟨.sequenceStart p.anchor tag, start⟩
    | .flowMappingStart =>
      await (.flowMappingKey true)
      pure ⟨.mappingStart p.anchor tag, start⟩
    | .blockSequenceStart =>
      if block then
        await (.blockSequenceEntry true)
        pure ⟨.sequenceStart p.anchor tag, start⟩
      else without p tag start t
    | .blockMappingStart =>
      if block then
        await (.blockMappingKey true)
        pure ⟨.mappingStart p.anchor tag, start⟩
      else without p tag start t
    | _ => without p tag start t
where
  /-- A value that is left out behind an anchor or a tag; without these it is a fault. -/
  without (p : Properties) (tag : Option String) (start : Mark) (t : Token) : ReadEvent Event := do
    if p.anchor.isSome || tag.isSome then
      popAwaiting
      pure ⟨.scalar p.anchor tag "" .plain, start⟩
    else
      let what := if block then "while parsing a block node" else "while parsing a flow node"
      fail (some (what, start)) "did not find expected node content" t.start

/-! ### Documents -/

/-- Whether a document of a version can be read. -/
def knowsVersion (major minor : Nat) : Bool := major == 1 && (minor == 1 || minor == 2)

/-- Reads the directives in front of a document, where a version may have been given before. -/
def directives : Nat → Bool → ReadEvent Unit
  | 0, _ => pure ()
  | fuel + 1, versionGiven => do
    let t ← peek
    match t.form with
    | .version major minor =>
      if versionGiven then fail none "found duplicate %YAML directive" t.start
      else if !knowsVersion major minor then fail none "found incompatible YAML document" t.start
      else
        skip
        directives fuel true
    | .tagHandle handle meaning =>
      if ((← get).handles.lookup handle).isSome then
        fail none "found duplicate %TAG directive" t.start
      else
        skip
        modify fun s => { s with handles := (handle, meaning) :: s.handles }
        directives fuel versionGiven
    | _ => pure ()

/-- Passes marks for the end of a document. -/
def skipDocumentEnds : Nat → ReadEvent Unit
  | 0 => pure ()
  | fuel + 1 => do
    if (← peek).form == .documentEnd then
      skip
      skipDocumentEnds fuel

/-- Whether a token stands in front of a document and not in it. -/
def isOutside : TokenForm → Bool
  | .version _ _ | .tagHandle _ _ | .documentStart | .streamEnd => true
  | _ => false

/-- The front of a document, or the end of the text. -/
def documentStart (implicit : Bool) : ReadEvent Event := do
  let n := (← get).tokens.length + 1
  if !implicit then skipDocumentEnds n
  let t ← peek
  if implicit && !isOutside t.form then
    pushAwaiting .documentEnd
    await .blockNode
    pure ⟨.documentStart, t.start⟩
  else if t.form == .streamEnd then
    await .nothing
    skip
    pure ⟨.streamEnd, t.start⟩
  else
    directives n false
    let u ← peek
    if u.form != .documentStart then
      fail none "did not find expected <document start>" u.start
    else
      pushAwaiting .documentEnd
      await .documentContent
      skip
      pure ⟨.documentStart, t.start⟩

/-- The content of a document behind its mark. -/
def documentContent : ReadEvent Event := do
  let t ← peek
  if isOutside t.form || t.form == .documentEnd then
    popAwaiting
    emptyScalar t.start
  else node true false

/-- The end of a document. -/
def documentEnd : ReadEvent Event := do
  let t ← peek
  if t.form == .documentEnd then skip
  modify fun s => { s with handles := [] }
  await (.documentStart false)
  pure ⟨.documentEnd, t.start⟩

/-! ### Lists and records by indentation -/

/-- Remembers the place of the first token of a list or record and passes it. -/
def enter (first : Bool) : ReadEvent Unit := do
  if first then
    pushMark (← peek).start
    skip

/-- An entry of a list, or its end. -/
def blockSequenceEntry (first : Bool) : ReadEvent Event := do
  enter first
  let t ← peek
  match t.form with
  | .blockEntry =>
    skip
    let u ← peek
    if u.form == .blockEntry || u.form == .blockEnd then
      await (.blockSequenceEntry false)
      emptyScalar t.stop
    else
      pushAwaiting (.blockSequenceEntry false)
      node true false
  | .blockEnd =>
    popAwaiting
    let _ ← popMark
    skip
    pure ⟨.sequenceEnd, t.start⟩
  | _ =>
    let m ← popMark
    fail (some ("while parsing a block collection", m)) "did not find expected '-' indicator"
      t.start

/-- Whether a token ends a key or value that is left out. -/
def endsValue : TokenForm → Bool
  | .key | .value | .blockEnd => true
  | _ => false

/-- An entry of a list that lies no further right than the key in front of it. -/
def indentlessEntry : ReadEvent Event := do
  let t ← peek
  if t.form == .blockEntry then
    skip
    let u ← peek
    if u.form == .blockEntry || endsValue u.form then
      await .indentlessEntry
      emptyScalar t.stop
    else
      pushAwaiting .indentlessEntry
      node true false
  else
    popAwaiting
    pure ⟨.sequenceEnd, t.start⟩

/-- A key of a record, or its end. -/
def blockMappingKey (first : Bool) : ReadEvent Event := do
  enter first
  let t ← peek
  match t.form with
  | .key =>
    skip
    if endsValue (← peek).form then
      await .blockMappingValue
      emptyScalar t.stop
    else
      pushAwaiting .blockMappingValue
      node true true
  | .blockEnd =>
    popAwaiting
    let _ ← popMark
    skip
    pure ⟨.mappingEnd, t.start⟩
  | _ =>
    let m ← popMark
    fail (some ("while parsing a block mapping", m)) "did not find expected key" t.start

/-- A value of a record. -/
def blockMappingValue : ReadEvent Event := do
  let t ← peek
  if t.form == .value then
    skip
    if endsValue (← peek).form then
      await (.blockMappingKey false)
      emptyScalar t.stop
    else
      pushAwaiting (.blockMappingKey false)
      node true true
  else
    await (.blockMappingKey false)
    emptyScalar t.start

/-! ### Lists and records between brackets -/

/-- Passes the comma in front of an item behind the first one. -/
def comma (first : Bool) (context problem : String) : ReadEvent Unit := do
  if !first then
    let t ← peek
    if t.form == .flowEntry then skip
    else
      let m ← popMark
      fail (some (context, m)) problem t.start

/-- The end of a list or record between brackets. -/
def closeFlow (form : EventForm) : ReadEvent Event := do
  let t ← peek
  popAwaiting
  let _ ← popMark
  skip
  pure ⟨form, t.start⟩

/-- An item of a list, or its end. -/
def flowSequenceEntry (first : Bool) : ReadEvent Event := do
  enter first
  if (← peek).form == .flowSequenceEnd then closeFlow .sequenceEnd
  else
    comma first "while parsing a flow sequence" "did not find expected ',' or ']'"
    let t ← peek
    if t.form == .key then
      await .flowPairKey
      skip
      pure ⟨.mappingStart none none, t.start⟩
    else if t.form == .flowSequenceEnd then closeFlow .sequenceEnd
    else
      pushAwaiting (.flowSequenceEntry false)
      node false false

/-- The key of a pair in a list. -/
def flowPairKey : ReadEvent Event := do
  let t ← peek
  if t.form == .value || t.form == .flowEntry || t.form == .flowSequenceEnd then
    skip
    await .flowPairValue
    emptyScalar t.stop
  else
    pushAwaiting .flowPairValue
    node false false

/-- The value of a pair in a list. -/
def flowPairValue : ReadEvent Event := do
  let t ← peek
  if t.form == .value then
    skip
    let u ← peek
    if u.form == .flowEntry || u.form == .flowSequenceEnd then
      await .flowPairEnd
      emptyScalar u.start
    else
      pushAwaiting .flowPairEnd
      node false false
  else
    await .flowPairEnd
    emptyScalar t.start

/-- The end of a pair in a list. -/
def flowPairEnd : ReadEvent Event := do
  let t ← peek
  await (.flowSequenceEntry false)
  pure ⟨.mappingEnd, t.start⟩

/-- A key of a record, or its end. -/
def flowMappingKey (first : Bool) : ReadEvent Event := do
  enter first
  if (← peek).form == .flowMappingEnd then closeFlow .mappingEnd
  else
    comma first "while parsing a flow mapping" "did not find expected ',' or '\x7d'"
    let t ← peek
    if t.form == .key then
      skip
      let u ← peek
      if u.form == .value || u.form == .flowEntry || u.form == .flowMappingEnd then
        await (.flowMappingValue false)
        emptyScalar u.start
      else
        pushAwaiting (.flowMappingValue false)
        node false false
    else if t.form == .flowMappingEnd then closeFlow .mappingEnd
    else
      pushAwaiting (.flowMappingValue true)
      node false false

/-- A value of a record. -/
def flowMappingValue (empty : Bool) : ReadEvent Event := do
  let t ← peek
  if !empty && t.form == .value then
    skip
    let u ← peek
    if u.form == .flowEntry || u.form == .flowMappingEnd then
      await (.flowMappingKey false)
      emptyScalar u.start
    else
      pushAwaiting (.flowMappingKey false)
      node false false
  else
    await (.flowMappingKey false)
    emptyScalar t.start

/-- The next event. -/
def step : ReadEvent (Option Event) := do
  match (← get).awaiting with
  | .nothing => pure none
  | .streamStart =>
    let _ ← peek
    skip
    await (.documentStart true)
    some <$> documentStart true
  | .documentStart implicit => some <$> documentStart implicit
  | .documentContent => some <$> documentContent
  | .documentEnd => some <$> documentEnd
  | .blockNode => some <$> node true false
  | .blockSequenceEntry first => some <$> blockSequenceEntry first
  | .indentlessEntry => some <$> indentlessEntry
  | .blockMappingKey first => some <$> blockMappingKey first
  | .blockMappingValue => some <$> blockMappingValue
  | .flowSequenceEntry first => some <$> flowSequenceEntry first
  | .flowPairKey => some <$> flowPairKey
  | .flowPairValue => some <$> flowPairValue
  | .flowPairEnd => some <$> flowPairEnd
  | .flowMappingKey first => some <$> flowMappingKey first
  | .flowMappingValue empty => some <$> flowMappingValue empty

end ReadEvent

/-- The events of a text, and the fault behind them. -/
structure EventStream where
  events : List Event
  fault : Option TextFault

/-- Collects events. -/
def collectEvents : Nat → EventReader → List Event → EventStream
  | 0, _, acc => ⟨acc.reverse, none⟩
  | fuel + 1, s, acc =>
    match ReadEvent.step.run s with
    | .ok (some e, s) => collectEvents fuel s (e :: acc)
    | .ok (none, _) => ⟨acc.reverse, none⟩
    | .error e => ⟨acc.reverse, some e⟩

/-- The events of a text. -/
def eventsOf (source : String) : EventStream :=
  let ts := tokensOf source
  collectEvents (4 * ts.tokens.length + 16)
    ⟨ts.tokens, ts.fault, .streamStart, [], [], []⟩ []

end DocBlocks.Yaml
