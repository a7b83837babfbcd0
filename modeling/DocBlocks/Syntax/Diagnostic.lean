import DocBlocks.Repair.Search
import DocBlocks.Source.Slice
import DocBlocks.Text.Blank
import DocBlocks.Text.Lines

/-
  What is wrong with a source that follows no rule of the grammar.

  The problem that is told is the first fault of the cheapest repair: text that had to be left out,
  or a token that had to be made up.
-/

namespace DocBlocks

/-- The first problem of a source. -/
inductive Diagnostic where
  /-- Text that no rule can take in, from a position on. -/
  | unexpected (line column : Nat) (near : String)
  /-- A token that has to be made up at a position. -/
  | missing (token : String) (line column : Nat)
  /-- A problem without a position. -/
  | unknown
  deriving DecidableEq, Repr

namespace Diagnostic

/-- The place of a problem in words. -/
def place (line column : Nat) : String :=
  "at line " ++ toString line ++ ", column " ++ toString column

/-- A problem in words. -/
def message : Diagnostic → String
  | unexpected line column near =>
    "syntax error " ++ place line column ++ " near \x60" ++ near ++ "\x60"
  | missing token line column => "missing \x60" ++ token ++ "\x60 " ++ place line column
  | unknown => "syntax error"

end Diagnostic

/-- The number of characters of a source that a problem quotes. -/
def quotedLength : Nat := 40

/-- What a problem quotes of a text: the beginning of its first line. -/
def quoteFront (text : List Char) : String :=
  String.ofList (trimChars (((linesOf text).headD []).take quotedLength))

/-- The one-based line and column behind the front of a source. Columns count bytes. -/
def lineAndColumn (front : List Char) : Nat × Nat :=
  (front.countP (· == '\n') + 1, byteLength (lastLine front) + 1)

/-- A fault of a repair as a problem of the source. -/
def Diagnostic.ofFault (source : List Char) : Fault → Diagnostic
  | .leftOut start stop =>
    let (front, rest) := splitBytes start source
    let (line, column) := lineAndColumn front
    .unexpected line column (quoteFront (splitBytes (stop - start) rest).1)
  | .madeUp title place =>
    let (line, column) := lineAndColumn (splitBytes place source).1
    .missing title line column

/-- The first problem of a source that follows no rule of the grammar. -/
def diagnose (source : String) : Diagnostic :=
  match firstFault? sourceRules source with
  | some fault => .ofFault source.toList fault
  | none => .unknown

end DocBlocks
