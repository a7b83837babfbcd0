import DocBlocks.Format.Yaml.TokenReader

/-
  Texts of a YAML document: plain, between quotes, and as blocks.

  A single line break inside a text counts as a blank, further ones count for themselves.
-/

namespace DocBlocks.Yaml.Scan

/-- Blanks and breaks inside a text that may or may not belong to it. -/
structure Gap where
  blanks : List Char
  firstBreak : List Char
  moreBreaks : List Char
  /-- Whether a line break was passed. -/
  broken : Bool

namespace Gap

/-- No gap. -/
def empty : Gap := ⟨[], [], [], false⟩

/-- What a gap counts as inside a text. -/
def folded (g : Gap) : List Char :=
  if g.broken then
    if g.firstBreak == ['\n'] then if g.moreBreaks.isEmpty then [' '] else g.moreBreaks
    else g.firstBreak ++ g.moreBreaks
  else g.blanks

end Gap

/-- Passes the blanks and breaks of a gap. The check is made before every blank behind a break. -/
def takeGapWithin (check : Scan Unit) : Nat → Gap → Scan Gap
  | 0, g => pure g
  | fuel + 1, g => do
    match ← peek with
    | none => pure g
    | some c =>
      if isBlank c then
        if g.broken then
          check
          skip 1
          takeGapWithin check fuel g
        else
          skip 1
          takeGapWithin check fuel { g with blanks := g.blanks ++ [c] }
      else if isBreak c then
        let b ← takeBreak
        if g.broken then takeGapWithin check fuel { g with moreBreaks := g.moreBreaks ++ b }
        else takeGapWithin check fuel { g with blanks := [], firstBreak := b, broken := true }
      else pure g

/-- Passes the blanks and breaks of a gap. -/
def takeGap (check : Scan Unit) (g : Gap) : Scan Gap := do
  takeGapWithin check ((← get).rest.length + 1) g

/-! ### Plain texts -/

/-- Whether a character ends a plain text inside brackets. -/
def endsFlowText (c : Char) : Bool :=
  c == ',' || c == '[' || c == ']' || c == '{' || c == '}'

/-- Takes the characters of a plain text up to a gap or to its end. -/
def plainRun (start : Mark) (flow : Bool) : Nat → List Char → Scan (List Char)
  | 0, acc => pure acc.reverse
  | fuel + 1, acc => do
    let c ← peek
    let after ← peekAt 1
    match c with
    | none => pure acc.reverse
    | some c =>
      if isBlank c || isBreak c then pure acc.reverse
      else if flow && c == ':' && after.any (fun d => endsFlowText d || d == '?') then
        fail (some ("while scanning a plain scalar", start)) "found unexpected ':'"
      else if (c == ':' && isBlankOrGone after) || (flow && endsFlowText c) then pure acc.reverse
      else
        skip 1
        plainRun start flow fuel (c :: acc)

/-- A plain text: the text so far, the gap behind it, and its end. -/
structure PlainText where
  text : List Char
  gap : Gap
  stop : Mark

/-- Takes a plain text run by run. -/
def plainWithin (start : Mark) : Nat → PlainText → Scan PlainText
  | 0, t => pure t
  | fuel + 1, t => do
    if (← documentMarkAhead '-') || (← documentMarkAhead '.') || (← sees '#') then pure t
    else
      let s ← get
      let run ← plainRun start (flowLevel s != 0) (s.rest.length + 1) []
      let t ← if run.isEmpty then pure t
        else pure { t with text := t.text ++ t.gap.folded ++ run, gap := .empty, stop := ← here }
      if (← peek).any fun c => isBlank c || isBreak c then
        let check : Scan Unit := do
          if (← here).column < s.indent + 1 && (← sees '\t') then
            fail (some ("while scanning a plain scalar", start))
              "found a tab character that violates indentation"
        let gap ← takeGap check t.gap
        let t := { t with gap := gap }
        if flowLevel s == 0 && (← here).column < s.indent + 1 then pure t
        else plainWithin start fuel t
      else pure t

/-- A plain text. Behind one that ends with a line break a key may stand. -/
def plainScalar : Scan Token := do
  let start ← here
  let t ← plainWithin start ((← get).rest.length + 1) ⟨[], .empty, start⟩
  if t.gap.broken then allowKey true
  pure ⟨.scalar (String.ofList t.text) .plain, start, t.stop⟩

/-! ### Quoted texts -/

/-- The escapes of one character with what they stand for. -/
def plainEscapes : List (Char × Nat) :=
  [('0', 0x00), ('a', 0x07), ('b', 0x08), ('t', 0x09), ('\t', 0x09), ('n', 0x0A), ('v', 0x0B),
   ('f', 0x0C), ('r', 0x0D), ('e', 0x1B), (' ', 0x20), ('"', 0x22), ('/', 0x2F), ('\\', 0x5C),
   ('N', 0x85), ('_', 0xA0), ('L', 0x2028), ('P', 0x2029)]

/-- The escapes by number with the count of their digits. -/
def numberEscapes : List (Char × Nat) := [('x', 2), ('u', 4), ('U', 8)]

/-- The value of a hexadecimal digit. -/
def hexValue? (c : Char) : Option Nat :=
  if c.isDigit then some (c.toNat - '0'.toNat)
  else if 'a' ≤ c && c ≤ 'f' then some (c.toNat - 'a'.toNat + 10)
  else if 'A' ≤ c && c ≤ 'F' then some (c.toNat - 'A'.toNat + 10)
  else none

/-- An escape of a double-quoted text. -/
def escape (start : Mark) : Scan Char := do
  let context := some ("while parsing a quoted scalar", start)
  let kind := (← peekAt 1).getD '\x00'
  match plainEscapes.lookup kind, numberEscapes.lookup kind with
  | some n, _ =>
    skip 2
    pure (Char.ofNat n)
  | none, some count =>
    skip 2
    let digits := (← get).rest.take count
    match digits.mapM hexValue? with
    | none => fail context "did not find expected hexdecimal number"
    | some ds =>
      if ds.length < count then fail context "did not find expected hexdecimal number"
      else
        let n := ds.foldl (fun n d => 16 * n + d) 0
        if n.isValidChar then
          skip count
          pure (Char.ofNat n)
        else fail context "found invalid Unicode character escape code"
  | none, none => fail context "found unknown escape character"

/-- The characters of a quoted text up to a gap or to its end. The answer tells also whether an
escaped line break was passed. -/
def quotedRun (start : Mark) (single : Bool) : Nat → List Char → Scan (List Char × Bool)
  | 0, acc => pure (acc.reverse, false)
  | fuel + 1, acc => do
    let c ← peek
    let after ← peekAt 1
    match c with
    | none => pure (acc.reverse, false)
    | some c =>
      if isBlank c || isBreak c then pure (acc.reverse, false)
      else if single && c == '\'' && after == some '\'' then
        skip 2
        quotedRun start single fuel ('\'' :: acc)
      else if c == (if single then '\'' else '"') then pure (acc.reverse, false)
      else if !single && c == '\\' && after.any isBreak then
        skip 1
        let _ ← takeBreak
        pure (acc.reverse, true)
      else if !single && c == '\\' then
        let d ← escape start
        quotedRun start single fuel (d :: acc)
      else
        skip 1
        quotedRun start single fuel (c :: acc)

/-- Takes a quoted text run by run. -/
def quotedWithin (start : Mark) (single : Bool) : Nat → List Char → Scan (List Char)
  | 0, acc => pure acc
  | fuel + 1, acc => do
    let context := some ("while scanning a quoted scalar", start)
    if (← documentMarkAhead '-') || (← documentMarkAhead '.') then
      fail context "found unexpected document indicator"
    else if (← peek).isNone then fail context "found unexpected end of stream"
    else
      let (run, broken) ← quotedRun start single ((← get).rest.length + 1) []
      let acc := acc ++ run
      if ← sees (if single then '\'' else '"') then pure acc
      else
        let gap ← takeGap (pure ()) { Gap.empty with broken := broken }
        quotedWithin start single fuel (acc ++ gap.folded)

/-- A quoted text. -/
def quotedScalar (single : Bool) : Scan Token := do
  let start ← here
  skip 1
  let text ← quotedWithin start single ((← get).rest.length + 1) []
  skip 1
  pure ⟨.scalar (String.ofList text) .quoted, start, ← here⟩

/-! ### Blocks -/

/-- What the head of a block says on line breaks at its end. -/
inductive Chomping where
  | strip
  | clip
  | keep
  deriving DecidableEq, Repr

/-- The sign on line breaks, if it comes next. -/
def chompingSign : Scan Chomping := do
  if ← sees '+' then
    skip 1
    pure .keep
  else if ← sees '-' then
    skip 1
    pure .strip
  else pure .clip

/-- The number for the indentation, if it comes next. -/
def indentationSign (start : Mark) : Scan (Option Nat) := do
  match ← peek with
  | some c =>
    if c == '0' then
      fail (some ("while scanning a block scalar", start))
        "found an indentation indicator equal to 0"
    else if c.isDigit then
      skip 1
      pure (some (c.toNat - '0'.toNat))
    else pure none
  | none => pure none

/-- The indentation and the empty lines of a block up to its next line. An indentation that is not
known yet is that of the next line, or of the longest empty one. -/
def blockBreaks (start : Mark) (indent : Option Int) :
    Nat → Int → List Char → Scan (Int × List Char)
  | 0, deepest, acc => pure (deepest, acc)
  | fuel + 1, deepest, acc => do
    let s ← get
    let spaces := (s.rest.takeWhile (· == ' ')).length
    let room := match indent with
      | none => spaces
      | some i => min spaces (i - s.mark.column).toNat
    skip room
    let column : Int := (← here).column
    let deepest := max deepest column
    if (indent.all fun i => column < i) && (← sees '\t') then
      fail (some ("while scanning a block scalar", start))
        "found a tab character where an indentation space is expected"
    else if (← peek).any isBreak then
      let b ← takeBreak
      blockBreaks start indent fuel deepest (acc ++ b)
    else
      match indent with
      | some i => pure (i, acc)
      | none => pure (max deepest (max (s.indent + 1) 1), acc)

/-- The lines of a block: the text so far, the break behind its last line, and the empty lines
behind that. -/
structure BlockText where
  text : List Char
  lastBreak : List Char
  moreBreaks : List Char
  afterBlank : Bool

/-- Takes a block line by line. -/
def blockWithin (start : Mark) (literal : Bool) (indent : Int) :
    Nat → BlockText → Scan BlockText
  | 0, t => pure t
  | fuel + 1, t => do
    if (← here).column == indent && (← peek).isSome then
      let blank := (← peek).any isBlank
      let joint :=
        if !literal && t.lastBreak == ['\n'] && !t.afterBlank && !blank then
          if t.moreBreaks.isEmpty then [' '] else []
        else t.lastBreak
      let line ← takeWhile fun c => !isBreak c
      let b ← takeBreak
      let (_, breaks) ← blockBreaks start (some indent) ((← get).rest.length + 1) 0 []
      blockWithin start literal indent fuel
        ⟨t.text ++ joint ++ t.moreBreaks ++ line, b, breaks, blank⟩
    else pure t

/-- A block. -/
def blockScalar (literal : Bool) : Scan Token := do
  let start ← here
  skip 1
  let sign ← chompingSign
  let number ← indentationSign start
  let sign ← if sign == .clip && number.isSome then chompingSign else pure sign
  let _ ← takeWhile isBlank
  if ← sees '#' then
    let _ ← takeWhile fun c => !isBreak c
  if !isBreakOrGone (← peek) then
    fail (some ("while scanning a block scalar", start))
      "did not find expected comment or line break"
  else
    let _ ← takeBreak
    let s ← get
    let known := number.map fun (n : Nat) => if 0 ≤ s.indent then s.indent + n else (n : Int)
    let (indent, breaks) ← blockBreaks start known (s.rest.length + 1) 0 []
    let t ← blockWithin start literal indent (s.rest.length + 1) ⟨[], [], breaks, false⟩
    let tail := match sign with
      | .strip => []
      | .clip => t.lastBreak
      | .keep => t.lastBreak ++ t.moreBreaks
    let style : ScalarStyle := if literal then .literal else .folded
    pure ⟨.scalar (String.ofList (t.text ++ tail)) style, start, ← here⟩

end DocBlocks.Yaml.Scan
