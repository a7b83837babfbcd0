import DocBlocks.Token.Character
import DocBlocks.Token.Terminal

/-
  Quoted texts.

  Between single quotes only the backslash and the quote itself are escaped. Templates (double
  quotes, backquotes and heredocs) are read in runs of characters that stand for themselves; a run
  stops in front of an escape, a variable, an opened expression or the end of the template. A run
  that nothing stops before the end of the source is none.
-/

namespace DocBlocks

/-! ### Single quotes -/

/-- Whether a text begins with an escape of a single-quoted text. -/
def opensPlainEscape : List Char → Bool
  | '\\' :: c :: _ => c == '\\' || c == '\''
  | _ => false

/-- The characters of a single-quoted text that stand for themselves. -/
def takePlainRun : List Char → List Char × List Char
  | [] => ([], [])
  | c :: cs =>
    if c == '\'' || isNull c || opensPlainEscape (c :: cs) then ([], c :: cs)
    else
      let (t, rest) := takePlainRun cs
      (c :: t, rest)

/-! ### Templates -/

/-- Whether a backslash in front of these characters opens an escape. -/
def opensEscape : List Char → Bool
  | c :: cs =>
    c == 'n' || c == 'r' || c == 't' || c == 'v' || c == 'e' || c == 'f' || c == '\\' ||
      c == '$' || c == '"' || c == 'u' || isOctalDigit c || (c == 'x' && cs.head?.any isHexDigit)
  | [] => false

/-- Whether a dollar sign in front of these characters opens a variable. -/
def opensVariable : List Char → Bool
  | c :: _ => c == '{' || (isLabelChar c && !c.isDigit)
  | [] => false

/-- Whether a character closes a frame. -/
def Frame.closes (frame : Frame) (c : Char) : Bool :=
  match frame with
  | .doubleQuotes => c == '"'
  | .backquotes => c == '\x60'
  | .heredoc => isLineBreak c

/-- Puts characters in front of a run. -/
def afterChars (front : List Char) (run? : Option (List Char × List Char)) :
    Option (List Char × List Char) :=
  run?.map fun (t, rest) => (front ++ t, rest)

/-- The longest run of characters that stand for themselves. Right behind a variable a bracket
and an arrow in front of a name belong to the variable. -/
def takeRun? (frame : Frame) : Bool → List Char → Option (List Char × List Char)
  | _, [] => none
  | _, ['\\'] => none
  | _, '\\' :: c :: cs =>
    if c == '{' || (frame == .heredoc && c == '\\') then
      afterChars ['\\', c] (takeRun? frame false cs)
    else if (frame == .backquotes && c == '\x60') || opensEscape (c :: cs) then
      some ([], '\\' :: c :: cs)
    else afterChars ['\\'] (takeRun? frame false (c :: cs))
  | _, '$' :: cs =>
    if opensVariable cs then some ([], '$' :: cs)
    else afterChars ['$'] (takeRun? frame false cs)
  | _, '{' :: cs =>
    if cs.head? == some '$' then some ([], '{' :: cs)
    else afterChars ['{'] (takeRun? frame false cs)
  | true, '[' :: cs => some ([], '[' :: cs)
  | true, '-' :: '>' :: cs =>
    if cs.head?.any isLabelChar then some ([], '-' :: '>' :: cs)
    else afterChars ['-', '>'] (takeRun? frame false cs)
  | _, c :: cs =>
    if frame.closes c then some ([], c :: cs)
    else afterChars [c] (takeRun? frame false cs)

/-- The length of the escape at the front of a text that begins with a backslash, or nothing if
the backslash opens none. -/
def escapeLength : List Char → Nat
  | '\\' :: c :: cs =>
    if c == 'n' || c == 'r' || c == 't' || c == 'v' || c == 'e' || c == 'f' || c == '\\' ||
        c == '$' || c == '"' || c == '\x60' then 2
    else if isOctalDigit c then 1 + ((c :: cs).take 3 |>.takeWhile isOctalDigit).length
    else if c == 'x' then
      match (cs.take 2).takeWhile isHexDigit with
      | [] => 0
      | ds => 2 + ds.length
    else if c == 'u' then
      match cs with
      | '{' :: ds =>
        let digits := ds.takeWhile isHexDigit
        match digits, ds.drop digits.length with
        | _ :: _, '}' :: _ => 4 + digits.length
        | _, _ => 0
      | _ => 0
    else 0
  | _ => 0

/-! ### Heredocs -/

/-- Takes the common front of a text and a label. -/
def takeLabelPart : List Char → List Char → List Char × List Char
  | l :: ls, c :: cs =>
    if l == c then
      let (t, rest) := takeLabelPart ls cs
      (c :: t, rest)
    else ([], c :: cs)
  | _, cs => ([], cs)

/-- What stands at the front of a line of a heredoc: blanks, which belong to no run, and the part of
the label behind them. There is no run if the whole label stands there. -/
def takeLineFront? (label cs : List Char) : Option (List Char × List Char × List Char) :=
  let blanks := cs.takeWhile isAsciiBlank
  let (part, rest) := takeLabelPart label (cs.drop blanks.length)
  if part == label && !label.isEmpty && !rest.head?.any isLabelChar then none
  else some (blanks, part, rest)

/-- The rest of a line of a heredoc without interpolation. The line must end. -/
def takeRawRun? (cs : List Char) : Option (List Char × List Char) :=
  let t := cs.takeWhile (!isLineBreak ·)
  match cs.drop t.length with
  | [] => none
  | rest => some (t, rest)

/-- The line break at the front of a text. -/
def takeNewline? : List Char → Option (List Char × List Char)
  | '\r' :: '\n' :: cs => some (['\r', '\n'], cs)
  | '\n' :: cs => some (['\n'], cs)
  | '\r' :: cs => some (['\r'], cs)
  | _ => none

end DocBlocks
