import DocBlocks.Text.Blank
import DocBlocks.Text.Lines

/-
  Documentation blocks.

  A text that already is a block keeps its lines and gets a new indentation; any other text is
  prose and is wrapped into a block. A terminator inside the text is broken up, so that the block
  ends where it should.
-/

namespace DocBlocks

/-- Breaks up the terminators of comments. -/
def escapeTerminators : List Char → List Char
  | '*' :: '/' :: cs => '*' :: '\\' :: '/' :: escapeTerminators cs
  | c :: cs => c :: escapeTerminators cs
  | [] => []

/-- What opens a block. -/
def blockOpening : List Char := ['/', '*', '*']

/-- What closes a block. -/
def blockClosing : List Char := ['*', '/']

/-- The inside of a text that is a block. -/
def blockInside? (cs : List Char) : Option (List Char) :=
  if blockOpening.isPrefixOf cs then
    let rest := cs.drop blockOpening.length
    if blockClosing.isSuffixOf rest then some (rest.take (rest.length - blockClosing.length))
    else none
  else none

/-- A line of a block behind its first one. -/
def blockLine (indent line : List Char) : List Char :=
  match trimChars line with
  | [] => indent ++ [' ', '*']
  | c :: cs =>
    if c = '*' then indent ++ ' ' :: c :: cs else indent ++ [' ', '*', ' '] ++ c :: cs

/-- A line of prose. -/
def proseLine (indent line : List Char) : List Char :=
  if line.all isBlank then indent ++ [' ', '*'] else indent ++ [' ', '*', ' '] ++ trimBack line

/-- The lines of a block that a text already is, given its inside. -/
def blockLines (indent inside : List Char) : List (List Char) :=
  match linesOf (blockOpening ++ escapeTerminators inside ++ blockClosing) with
  | [] => []
  | l :: ls => trimChars l :: ls.map (blockLine indent)

/-- The lines of a block around prose. -/
def proseLines (indent text : List Char) : List (List Char) :=
  blockOpening :: (linesOf (escapeTerminators text)).map (proseLine indent) ++
    [indent ++ ' ' :: blockClosing]

/-- The lines of the block for a text. The first line is not indented, since it stands where the
indentation of the method ends. -/
def renderLines (doc indent : List Char) : List (List Char) :=
  let text := trimChars doc
  match blockInside? text with
  | some inside => blockLines indent inside
  | none => proseLines indent text

/-- The block for a text. -/
def renderBlock (doc indent newline : String) : String :=
  String.ofList (newline.toList.intercalate (renderLines doc.toList indent.toList))

end DocBlocks
