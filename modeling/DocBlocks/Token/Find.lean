import DocBlocks.Token.Comment
import DocBlocks.Token.Markup
import DocBlocks.Token.Number
import DocBlocks.Token.Template
import DocBlocks.Token.Word

/-
  The next token of a source.

  What stands at the front of a text depends on what is expected there. Of all the tokens that the
  text can begin with, the longest one counts whose terminal is accepted; comments and islands of
  markup are always accepted. Some tokens are looked for before all others: the runs of templates,
  the labels of heredocs, and the closing tag that ends a statement.
-/

namespace DocBlocks

/-- What was found at the front of a text. -/
inductive Find where
  /-- A token, by the terminals it was or could have been taken for. The first one is accepted. -/
  | token (terminal : Terminal) (rivals : List Terminal) (text : List Char)
  | comment (text : List Char)
  | island (island : Island)
  deriving DecidableEq, Repr

/-- The next token or extra of a text, what stands before it, and what is left. -/
structure Lexeme where
  gap : List Char
  find : Find
  rest : List Char
  /-- The labels of the heredocs that are open behind it, innermost first. -/
  labels : List (List Char)
  deriving DecidableEq, Repr

/-- The text that was found. -/
def Find.text : Find → String
  | token _ _ t => String.ofList t
  | comment t => String.ofList t
  | island i => i.source

/-- The number of characters that were found. -/
def Find.length : Find → Nat
  | token _ _ t => t.length
  | comment t => t.length
  | island i => i.source.length

/-! ### Marks, words and numbers -/

/-- The marks of more than one character. -/
def longMarks : List (List Char) :=
  ["<=>", "**=", "...", "<<=", ">>=", "<<<", "===", "!==", "??=", "?->",
   "||", "&&", "==", "!=", "<>", "<=", ">=", "<<", ">>", "++", "--", "+=", "-=", "*=", "/=", ".=",
   "%=", "&=", "|=", "^=", "=>", "->", "::", "??", "**", "|>", "#["].map String.toList

/-- The marks of one character. -/
def shortMarks : List Char :=
  ";:,.[]()\x7b\x7d=+-*/%&|^~!<>?@\\$'\"\x60".toList

/-- A way to read the front of a text. -/
structure Alternative where
  length : Nat
  /-- The terminals it can stand for, or nothing if it is a comment. -/
  terminals? : Option (List Terminal)
  deriving DecidableEq, Repr

namespace Alternative

/-- A token. -/
def token (length : Nat) (terminals : List Terminal) : Alternative := ⟨length, some terminals⟩

/-- A mark, which may have to be tight. -/
def mark (text : List Char) : Alternative :=
  token text.length [.tight (String.ofList text), .mark (String.ofList text)]

/-- The marks at the front of a text. -/
def marks (cs : List Char) : List Alternative :=
  let long := longMarks.filter (·.isPrefixOf cs)
  let short := (cs.take 1).filter shortMarks.contains
  long.map mark ++ if short.isEmpty then [] else [mark short]

/-- The float at the front of a text. -/
def floats (cs : List Char) : List Alternative :=
  match floatLength cs with
  | 0 => []
  | n => [token n [.float]]

/-- The integer at the front of a text. -/
def integers (cs : List Char) : List Alternative :=
  match integerLength cs with
  | 0 => []
  | n => [token n [.integer]]

/-- The words at the front of a text that begins with a letter. -/
def words (cs : List Char) : List Alternative :=
  let word := cs.takeWhile isNameChar
  let rest := cs.drop word.length
  let lower := word.map Char.toLower
  let longer := match rest with
    | q :: _ =>
      if lower == ['b'] && (q == '\'' || q == '"') then [token 2 [.byteQuote q]]
      else if lower == "yield".toList then
        match takeFrom? rest with
        | some (t, _) => [token (word.length + t.length) [.yieldFrom]]
        | none => []
      else []
    | [] => []
  longer ++ [token word.length (wordTerminals (String.ofList word))]

/-- The comment at the front of a text. -/
def comments : List Char → List Alternative
  | '/' :: '/' :: cs => [⟨2 + (takeLineComment cs).1.length, none⟩]
  | '/' :: '*' :: cs =>
    match takeBlockComment? cs with
    | some (t, _) => [⟨2 + t.length, none⟩]
    | none => []
  | '#' :: cs =>
    if opensNumberComment cs then [⟨1 + (takeLineComment cs).1.length, none⟩] else [⟨1, none⟩]
  | _ => []

/-- All ways to read the front of a text, longer ones first. -/
def all (cs : List Char) : List Alternative :=
  let found := match cs with
    | [] => []
    | c :: _ =>
      if isNameStart c then floats cs ++ words cs
      else if c.isDigit then integers cs ++ floats cs
      else comments cs ++ marks cs ++ floats cs
  found.mergeSort fun a b => b.length ≤ a.length

end Alternative

/-! ### What is accepted -/

/-- The terminals that a place accepts. -/
abbrev Accepts := Terminal → Bool

/-- A lexeme with nothing of interest to heredocs. -/
def lexeme (labels : List (List Char)) (gap : List Char) (find : Find) (rest : List Char) :
    Lexeme := ⟨gap, find, rest, labels⟩

/-- A token that can stand for one terminal only. -/
def soleToken (labels : List (List Char)) (gap : List Char) (t : Terminal) (text rest : List Char) :
    Lexeme := lexeme labels gap (.token t [] text) rest

/-- The first way to read a text that is accepted. A tight mark is accepted only if no gap is
before it. -/
def pickAlternative? (accepts : Accepts) (labels : List (List Char)) (gap cs : List Char) :
    List Alternative → Option Lexeme
  | [] => none
  | a :: as =>
    match a.terminals? with
    | none => some (lexeme labels gap (.comment (cs.take a.length)) (cs.drop a.length))
    | some ts =>
      let fits (t : Terminal) : Bool :=
        accepts t && (gap.isEmpty || !t.isTight)
      match ts.find? fits with
      | some t => some (lexeme labels gap (.token t ts (cs.take a.length)) (cs.drop a.length))
      | none => pickAlternative? accepts labels gap cs as

/-- The token or extra behind a gap. -/
def findInCode? (accepts : Accepts) (labels : List (List Char)) (gap : List Char) :
    List Char → Option Lexeme
  | [] => if accepts .finish then some (soleToken labels gap .finish [] []) else none
  | '?' :: '>' :: cs =>
    let (island, rest) := takeIsland cs
    some (lexeme labels gap (.island island) rest)
  | cs => pickAlternative? accepts labels gap cs (Alternative.all cs)

/-- What single-quoted texts are made of. -/
def findPlain? (labels : List (List Char)) (cs : List Char) : Option Lexeme :=
  if opensPlainEscape cs then
    some (soleToken labels [] .plainEscape (cs.take 2) (cs.drop 2))
  else
    match takePlainRun cs with
    | ([], _) =>
      if cs.head? == some '\'' then
        some (soleToken labels [] (.mark "'") (cs.take 1) (cs.drop 1))
      else none
    | (t, rest) => some (soleToken labels [] .plainChunk t rest)

/-- The escape at the front of a text. -/
def findEscape? (accepts : Accepts) (labels : List (List Char)) (gap cs : List Char) :
    Option Lexeme :=
  match escapeLength cs with
  | 0 =>
    if accepts .bareEscape && ['\\', 'u'].isPrefixOf cs then
      some (soleToken labels gap .bareEscape (cs.take 2) (cs.drop 2))
    else none
  | n =>
    if accepts .escape then some (soleToken labels gap .escape (cs.take n) (cs.drop n)) else none

/-- The blanks in front of markup or a tag. A byte order mark may stand in front of all markup. -/
def markupGap (accepts : Accepts) (cs : List Char) : List Char :=
  let order := if accepts .markup && cs.head? == some '\uFEFF' then cs.take 1 else []
  order ++ (cs.drop order.length).takeWhile isAsciiBlank

/-- Markup or a tag at the front of a text. -/
def findMarkup? (accepts : Accepts) (labels : List (List Char)) (cs : List Char) :
    Option Lexeme :=
  let gap := markupGap accepts cs
  let rest := cs.drop gap.length
  match takeMarkup rest with
  | (t :: ts, rest) =>
    if accepts .markup then some (soleToken labels gap .markup (t :: ts) rest) else none
  | ([], _) =>
    match takeTag? rest with
    | some (tag, rest) => some (soleToken labels gap .tag tag rest)
    | none =>
      if rest.isEmpty && accepts .finish then some (soleToken labels gap .finish [] []) else none

/-- The line break of a heredoc at the front of a text. -/
def findNewline? (labels : List (List Char)) (cs : List Char) : Option Lexeme :=
  let gap := cs.takeWhile fun c => isLayout c && !isLineBreak c
  (takeNewline? (cs.drop gap.length)).map fun (newline, rest) =>
    soleToken labels gap .newline newline rest

/-! ### What is looked for first -/

/-- The runs of templates, in the order in which they are looked for. -/
def chunkTerminals : List Terminal :=
  [.chunk .doubleQuotes true, .chunk .doubleQuotes false, .chunk .backquotes true,
   .chunk .backquotes false, .chunk .heredoc true, .chunk .heredoc false]

/-- The run of a template at the front of a text. -/
def findChunk? (labels : List (List Char)) (frame : Frame) (behindVariable : Bool)
    (cs : List Char) : Option Lexeme := do
  let (gap, part, rest) ← match frame with
    | .heredoc => takeLineFront? (labels.headD []) cs
    | _ => some ([], [], cs)
  let (t, rest) ← takeRun? frame behindVariable rest
  if (part ++ t).isEmpty then none
  else some (soleToken labels gap (.chunk frame behindVariable) (part ++ t) rest)

/-- The line of a heredoc without interpolation at the front of a text. -/
def findRawLine? (labels : List (List Char)) (cs : List Char) : Option Lexeme := do
  let (gap, part, rest) ← takeLineFront? (labels.headD []) cs
  let (t, rest) ← takeRawRun? rest
  if (part ++ t).isEmpty then none
  else some (soleToken labels gap .rawLine (part ++ t) rest)

/-- The labels that are open once the innermost heredoc has been closed. A heredoc inside another
one leaves the outer one without a label to close it. -/
def closeLabel (labels : List (List Char)) : List (List Char) :=
  (labels.drop 1).map fun _ => []

/-- The label that closes the innermost heredoc. -/
def findEndLabel? (labels : List (List Char)) (cs : List Char) : Option Lexeme :=
  let gap := cs.takeWhile isAsciiBlank
  let rest := cs.drop gap.length
  let word := rest.takeWhile isLabelChar
  if !word.isEmpty && labels.head? == some word then
    some (soleToken (closeLabel labels) gap .endLabel word (rest.drop word.length))
  else none

/-- The label that opens a heredoc. Blanks in front of it belong to it. -/
def findLabel? (labels : List (List Char)) (cs : List Char) : Option Lexeme :=
  let gap := cs.takeWhile isAsciiBlank
  let word := (cs.drop gap.length).takeWhile isLabelChar
  if word.isEmpty then none
  else some (soleToken (word :: labels) [] .label (gap ++ word) (cs.drop (gap ++ word).length))

/-- What is looked for before all other tokens. -/
def findFirst? (accepts : Accepts) (labels : List (List Char)) (cs : List Char) :
    Option Lexeme :=
  match chunkTerminals.find? accepts with
  | some (.chunk frame behindVariable) => findChunk? labels frame behindVariable cs
  | _ =>
    if accepts .rawLine then findRawLine? labels cs
    else if accepts .endLabel then findEndLabel? labels cs
    else if accepts .label then findLabel? labels cs
    else if accepts .pause && seesClosingTag cs then some (soleToken labels [] .pause [] cs)
    else none

/-- What is looked for behind layout, or instead of it. -/
def findNext? (accepts : Accepts) (labels : List (List Char)) (cs : List Char) :
    Option Lexeme :=
  if accepts .plainChunk then findPlain? labels cs
  else if accepts .tag then findMarkup? accepts labels cs
  else
    let newline? := if accepts .newline then findNewline? labels cs else none
    newline?.or (
      let gap := cs.takeWhile isLayout
      let rest := cs.drop gap.length
      (findEscape? accepts labels gap rest).or (findInCode? accepts labels gap rest))

/-- The next token or extra of a text if nothing is known about what is expected. -/
def strayLexeme? (accepts : Accepts) (labels : List (List Char)) (cs : List Char) :
    Option Lexeme :=
  let gap := cs.takeWhile isLayout
  findInCode? accepts labels gap (cs.drop gap.length)

/-- The next token or extra of a text that a place accepts. -/
def nextLexeme? (accepts : Accepts) (labels : List (List Char)) (cs : List Char) :
    Option Lexeme :=
  (findFirst? accepts labels cs).or (findNext? accepts labels cs)

end DocBlocks
