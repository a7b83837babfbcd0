import DocBlocks.Annotation.Write
import DocBlocks.Controller.Describe
import DocBlocks.Project.Session

/-
  Sources in memory and in files.
-/

namespace DocBlocks

/-- The tree of a text in memory, given a way of reading sources. -/
def parseTextWith (read : String → Option RangedTree) (source : String) : Except Error Node :=
  match parseWith read source with
  | .ok root => .ok root
  | .error e => .error (.unparsable inMemoryPath e)

/-- The tree of a text in memory. -/
def parseText (source : String) : Except Error Node :=
  parseTextWith sourceRanges? source

/-- Why a tree has no description, as an error. -/
def DescribeFault.toError : DescribeFault → Error
  | noClass => .noClass inMemoryPath
  | namelessClass => .unparsable inMemoryPath .namelessClass

/-- Describes the class of a tree. -/
def extractTree (root : Node) (source : String) : Except Error ClassDescriptor :=
  match describeClass root source with
  | .ok c => .ok c
  | .error e => .error e.toError

/-- Describes the class of a text in memory, given a way of reading sources. -/
def extractTextWith (read : String → Option RangedTree) (source : String) :
    Except Error ClassDescriptor :=
  match parseTextWith read source with
  | .ok root => extractTree root source
  | .error e => .error e

/-- Describes the class of a text in memory. -/
def extractText (source : String) : Except Error ClassDescriptor :=
  extractTextWith sourceRanges? source

/-- Describes the class of a text that was read from a file. -/
def extractTextAt (path source : String) : Except Error ClassDescriptor :=
  match extractText source with
  | .ok c => .ok { c with path := some path }
  | .error e => .error (e.withPath path)

/-- Describes the class of a file. -/
def extractFile (files : FileSystem) (path : String) : Except Error ClassDescriptor :=
  match files.readText path with
  | .ok source => extractTextAt path source
  | .error e => .error (.unreadable path e)

/-! ### Parsing files -/

/-- A file with its tree. -/
structure ParsedFile where
  path : String
  source : String
  root : Node

/-- The tree of a file. -/
def parseFile (files : FileSystem) (path : String) : Except Error ParsedFile :=
  match files.readText path with
  | .error e => .error (.unreadable path e)
  | .ok source =>
    match parseText source with
    | .ok root => .ok ⟨path, source, root⟩
    | .error e => .error (e.withPath path)

/-- Parses files one after the other; a failure does not stop the others. -/
def parseFiles {ε : Type} : List String → Work ε (List (Except Error ParsedFile))
  | [] => pure []
  | path :: paths => do
    let result := parseFile (← Work.files) path
    if let .error e := result then
      Work.warn ("Failed to parse " ++ path ++ ": " ++ e.message)
    pure (result :: (← parseFiles paths))

/-! ### Writing documentation -/

/-- Goes on with the outcome of writing documentation, with a warning for each name that was of no
use. -/
def WriteOutcome.finish (outcome : WriteOutcome) : Work Error String := do
  outcome.unused.forM fun name => Work.warn (unusedWarning name)
  Work.ofExcept (.unparsable inMemoryPath) outcome.result

/-- Writes documentation into a text. -/
def writeText (source : String) (docs : DocMap) : Work Error String :=
  (writeDocs source docs).finish

end DocBlocks
