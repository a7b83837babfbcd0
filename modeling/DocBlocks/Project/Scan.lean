import DocBlocks.Project.Session

/-
  Finding source files.

  A directory is walked with its entries in the order of their names, and what a directory holds
  stands in its place. Hidden directories and those of `skippedDirectories` are not entered, unless
  the walk starts there. Links are not followed, unless the walk starts at one.
-/

namespace DocBlocks

/-- The directories that are not entered. -/
def skippedDirectories : List String := ["vendor", "node_modules", "storage"]

/-- Whether a directory is entered. -/
def isEntered (name : String) : Bool :=
  !(name.toList.head? == some '.') && !skippedDirectories.contains name

/-- Whether a name is that of a source file. -/
def isSourceName (name : String) : Bool := extensionOfName? name == some "php"

mutual

/-- The source files at and below an entry that is reached by a path. -/
def sourcesAt (path name : String) : Entry → List String
  | .file _ _ => if isSourceName name then [path] else []
  | .link _ => []
  | .directory _ es => if isEntered name then sourcesAmong path es else []

/-- The source files among the entries of a directory and below them. -/
def sourcesAmong (dir : String) : List (String × Entry) → List String
  | [] => []
  | (name, e) :: es => sourcesAt (joinPath dir name) name e ++ sourcesAmong dir es

end

/-- What a scan found: paths of source files, and warnings. -/
structure ScanResult where
  files : List String
  warnings : List String
  deriving DecidableEq, Repr

/-- The warning for a path that cannot be looked at. -/
def accessWarning (path : String) (cause : IoFault) : String :=
  "Failed to access path: IO error for operation on " ++ path ++ ": " ++ cause.message

/-- The source files at and below a path. -/
def scan (files : FileSystem) (root : String) : ScanResult :=
  match files.findLink root with
  | .error e => ⟨[], [accessWarning root e]⟩
  | .ok (.file _ _) => ⟨if extensionOf? root == some "php" then [root] else [], []⟩
  | .ok (.directory _ es) => ⟨sourcesAmong root es, []⟩
  | .ok (.link _) =>
    match files.find root with
    | .error e => ⟨[], [accessWarning root e]⟩
    | .ok e => ⟨sourcesAmong root e.entries, []⟩

/-- Scans, with the warnings in the log. -/
def scanLogged {ε : Type} (root : String) : Work ε ScanResult := do
  let result := scan (← Work.files) root
  result.warnings.forM Work.warn
  pure result

end DocBlocks
