import DocBlocks.Syntax.Diagnostic
import DocBlocks.Syntax.Ranges
import DocBlocks.Text.Blank

/-
  Reading a source into its tree, or saying why there is none.
-/

namespace DocBlocks

/-- The reasons why a source has no tree or a tree no description. -/
inductive ParseFault where
  | empty
  | unparsable (problem : Diagnostic)
  /-- A class without a name, which only a tree built by hand can hold. -/
  | namelessClass
  /-- The source with documentation attached has no tree any more. -/
  | brokenByDocs (cause : ParseFault)
  /-- A reason given by somebody else. -/
  | stated (reason : String)
  deriving DecidableEq, Repr

/-- A reason in words. -/
def ParseFault.message : ParseFault → String
  | empty => "source is empty"
  | unparsable problem => problem.message
  | namelessClass => "class declaration without a name"
  | brokenByDocs cause => "documented source no longer parses: " ++ cause.message
  | stated reason => reason

/-- The lossless tree of a source, given a way of reading sources. A source of blanks only has
none. -/
def parseWith (read : String → Option RangedTree) (source : String) : Except ParseFault Node :=
  if isAllBlank source then .error .empty
  else match read source with
    | some tree => .ok (tree.syntaxTree source)
    | none => .error (.unparsable (diagnose source))

/-- The tree of a source. -/
def parseSource (source : String) : Except ParseFault Node :=
  parseWith sourceRanges? source

end DocBlocks
