import DocBlocks.Annotation.Attach
import DocBlocks.Syntax.Parse

/-
  Writing documentation into a source.

  The documented tree is printed and read once more, so that documentation never turns a program
  into something else that is none.
-/

namespace DocBlocks

/-- The line ending of new lines: that of the source, if it holds one with a carriage return. -/
def newlineOf (source : String) : String :=
  if hasPair source.toList then "\r\n" else "\n"
where
  /-- Whether a carriage return stands before a line feed. -/
  hasPair : List Char → Bool
    | '\r' :: '\n' :: _ => true
    | _ :: cs => hasPair cs
    | [] => false

/-- The names of a map that no method of a tree has. -/
def unusedNames (docs : DocMap) (root : Node) : List String :=
  docs.names.filter fun name => !(documentedIn docs root).contains name

/-- The outcome of writing documentation: the names that were of no use, and the new source. -/
structure WriteOutcome where
  unused : List String
  result : Except ParseFault String

/-- Writes documentation into a source, given a way of reading sources. Of a source without a tree
no name is told to be unused. -/
def writeDocsWith (read : String → Option RangedTree) (source : String) (docs : DocMap) :
    WriteOutcome :=
  match parseWith read source with
  | .error e => ⟨[], .error e⟩
  | .ok root =>
    let output := (annotate docs (newlineOf source) root).text
    let unused := unusedNames docs root
    if (documentedIn docs root).isEmpty then ⟨unused, .ok output⟩
    else match parseWith read output with
      | .error e => ⟨unused, .error (.brokenByDocs e)⟩
      | .ok _ => ⟨unused, .ok output⟩

/-- Writes documentation into a source. -/
def writeDocs (source : String) (docs : DocMap) : WriteOutcome :=
  writeDocsWith sourceRanges? source docs

/-- The warning for a name of no use. -/
def unusedWarning (name : String) : String :=
  "No method named \x60" ++ name ++ "\x60 found; documentation skipped"

end DocBlocks
