import DocBlocks.Format.Yaml.Token

/-
  The state of the token reader, and what it does with single characters, indentation and keys.

  A key in front of a colon is only known to be one when the colon is reached. The reader therefore
  remembers where a key might have begun, and holds tokens back until that is settled.
-/

namespace DocBlocks.Yaml

/-- A place where a key may have begun. -/
structure PossibleKey where
  possible : Bool
  /-- Whether only a key may stand there. -/
  required : Bool
  /-- The number of the token that would be the key. -/
  token : Nat
  mark : Mark
  deriving Repr

/-- No key. -/
def PossibleKey.none : PossibleKey := ⟨false, false, 0, .start⟩

/-- The state of the token reader. -/
structure TokenReader where
  rest : List Char
  mark : Mark
  /-- Tokens that are held back. -/
  queue : List Token
  /-- How many tokens were handed out. -/
  handedOut : Nat
  /-- The column of the innermost block, or minus one. -/
  indent : Int
  indents : List Int
  keyAllowed : Bool
  /-- The possible keys, one for each level of brackets, innermost first. -/
  keys : List PossibleKey
  started : Bool
  ended : Bool

/-- A step of the token reader. -/
abbrev Scan := StateT TokenReader (Except TextFault)

namespace Scan

/-! ### Characters -/

/-- The character at a distance. -/
def peekAt (i : Nat) : Scan (Option Char) := do
  pure ((← get).rest.drop i).head?

/-- The next character. -/
def peek : Scan (Option Char) := peekAt 0

/-- Whether a character is there. -/
def sees (c : Char) : Scan Bool := do
  pure ((← peek) == some c)

/-- Whether nothing is there, a blank or a break. -/
def isBlankOrGone : Option Char → Bool
  | none => true
  | some c => isBlank c || isBreak c

/-- Whether nothing is there or a break. -/
def isBreakOrGone : Option Char → Bool
  | none => true
  | some c => isBreak c

/-- The place of the reader. -/
def here : Scan Mark := do
  pure (← get).mark

/-- Passes characters inside a line. -/
def skip (n : Nat) : Scan Unit :=
  modify fun s => { s with
    rest := s.rest.drop n
    mark := ⟨s.mark.index + n, s.mark.line, s.mark.column + n⟩ }

/-- Passes characters as long as they have a property, and gives them back. -/
def takeWhile (p : Char → Bool) : Scan (List Char) := do
  let cs := (← get).rest.takeWhile p
  skip cs.length
  pure cs

/-- Passes a line break, and gives back what it counts as in a text. -/
def takeBreak : Scan (List Char) := do
  let s ← get
  match s.rest with
  | '\r' :: '\n' :: cs =>
    set { s with rest := cs, mark := ⟨s.mark.index + 2, s.mark.line + 1, 0⟩ }
    pure ['\n']
  | c :: cs =>
    if isBreak c then
      set { s with rest := cs, mark := ⟨s.mark.index + 1, s.mark.line + 1, 0⟩ }
      pure [if c.toNat == 0x2028 || c.toNat == 0x2029 then c else '\n']
    else pure []
  | [] => pure []

/-- Fails at the reader's place. -/
def fail {α : Type} (context : Option (String × Mark)) (problem : String) : Scan α := do
  throw ⟨problem, ← here, context, 0⟩

/-- Whether the reader stands before the mark of a new document. -/
def documentMarkAhead (c : Char) : Scan Bool := do
  let s ← get
  pure (s.mark.column == 0 && [c, c, c].isPrefixOf s.rest && isBlankOrGone (s.rest.drop 3).head?)

/-! ### Tokens -/

/-- The number of open brackets. -/
def flowLevel (s : TokenReader) : Nat := s.keys.length - 1

/-- Whether the reader is inside brackets. -/
def inFlow : Scan Bool := do
  pure (flowLevel (← get) != 0)

/-- Adds a token at the end. -/
def push (t : Token) : Scan Unit :=
  modify fun s => { s with queue := s.queue ++ [t] }

/-- Adds a token with a given number. -/
def insertToken (number : Nat) (t : Token) : Scan Unit :=
  modify fun s => { s with queue := s.queue.insertIdx (number - s.handedOut) t }

/-- Allows or forbids a key at the next place. -/
def allowKey (b : Bool) : Scan Unit :=
  modify fun s => { s with keyAllowed := b }

/-- A token of some characters at the reader's place. -/
def pushMark (form : TokenForm) (length : Nat) : Scan Unit := do
  let start ← here
  skip length
  push ⟨form, start, ← here⟩

/-! ### Indentation -/

/-- Opens a block if the column lies further right than the block around it. -/
def rollIndent (column : Nat) (form : TokenForm) (mark : Mark) (number : Option Nat) :
    Scan Unit := do
  let s ← get
  if flowLevel s == 0 && s.indent < column then
    set { s with indent := column, indents := s.indent :: s.indents }
    match number with
    | none => push ⟨form, mark, mark⟩
    | some n => insertToken n ⟨form, mark, mark⟩

/-- Closes the blocks that lie further right than a column. -/
def unrollWithin : Nat → Int → Scan Unit
  | 0, _ => pure ()
  | fuel + 1, column => do
    let s ← get
    if column < s.indent then
      push ⟨.blockEnd, s.mark, s.mark⟩
      modify fun s => { s with indent := s.indents.headD (-1), indents := s.indents.drop 1 }
      unrollWithin fuel column

/-- Closes the blocks that lie further right than a column, unless the reader is inside brackets. -/
def unrollIndent (column : Int) : Scan Unit := do
  let s ← get
  if flowLevel s == 0 then unrollWithin (s.indents.length + 1) column

/-! ### Keys -/

/-- The fault of a key without its colon. -/
def missingColon {α : Type} (key : PossibleKey) : Scan α :=
  fail (some ("while scanning a simple key", key.mark)) "could not find expected ':'"

/-- Gives up the possible key of the innermost level. -/
def removeKey : Scan Unit := do
  let s ← get
  match s.keys with
  | [] => pure ()
  | key :: keys =>
    if key.possible && key.required then missingColon key
    else set { s with keys := { key with possible := false } :: keys }

/-- Remembers that a key may begin here. -/
def saveKey : Scan Unit := do
  let s ← get
  if s.keyAllowed then
    let required := flowLevel s == 0 && s.indent == s.mark.column
    removeKey
    modify fun s => { s with
      keys := ⟨true, required, s.handedOut + s.queue.length, s.mark⟩ :: s.keys.drop 1 }

/-- The longest key. -/
def longestKey : Nat := 1024

/-- Gives up the keys that would be too long or span lines. -/
def dropStaleKeys : Scan Unit := do
  let s ← get
  let isStale (k : PossibleKey) :=
    k.possible && (k.mark.line < s.mark.line || k.mark.index + longestKey < s.mark.index)
  match s.keys.reverse.find? fun k => isStale k && k.required with
  | some key => missingColon key
  | none =>
    set { s with keys := s.keys.map fun k => if isStale k then { k with possible := false } else k }

/-- Enters brackets. -/
def enterFlow : Scan Unit :=
  modify fun s => { s with keys := .none :: s.keys }

/-- Leaves brackets. -/
def leaveFlow : Scan Unit :=
  modify fun s => if flowLevel s == 0 then s else { s with keys := s.keys.drop 1 }

/-! ### Layout -/

/-- Passes blanks, comments and line breaks. -/
def skipLayoutWithin : Nat → Scan Unit
  | 0 => pure ()
  | fuel + 1 => do
    if (← here).column == 0 && (← peek).any (·.toNat == 0xFEFF) then skip 1
    let s ← get
    let tabs := flowLevel s != 0 || !s.keyAllowed
    let _ ← takeWhile fun c => c == ' ' || (tabs && c == '\t')
    if ← sees '#' then
      let _ ← takeWhile fun c => !isBreak c
    if (← peek).any isBreak then
      let _ ← takeBreak
      if !(← inFlow) then allowKey true
      skipLayoutWithin fuel

/-- Passes blanks, comments and line breaks. -/
def skipLayout : Scan Unit := do
  skipLayoutWithin ((← get).rest.length + 1)

end Scan

end DocBlocks.Yaml
