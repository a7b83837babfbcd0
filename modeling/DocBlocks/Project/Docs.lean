import DocBlocks.Project.Session
import DocBlocks.Annotation.Attach

/-
  Documentation maps in files.

  The extension of a file tells its format.
-/

namespace DocBlocks

/-- The form of a documentation map is a table of texts; the last text for a name wins. -/
def DocMap.ofData? : Data → Option DocMap
  | .record fields => do
    let entries ← fields.mapM fun (name, d) => do pure (name, ← d.asText?)
    pure (DocMap.ofList entries)
  | _ => none

/-- The reason why a file has the wrong extension. -/
def unsupportedFormat (path : String) : String :=
  "unsupported documentation map format: " ++ path ++ " (expected .json, .yaml or .yml)"

/-- The map that data stands for. Data of the form of a table stands for one. -/
def docsOf (d : Data) : Except Error DocMap :=
  match DocMap.ofData? d with
  | some docs => .ok docs
  | none => .error (.serialization (.stated "not a table of texts"))

/-- The documentation map of a text whose format an extension tells. -/
def readDocs (path content : String) : Except Error DocMap :=
  match (extensionOf? path).map String.toLower with
  | some "json" =>
    match Json.read .table content with
    | .ok d => docsOf d
    | .error e => .error (.serialization (.json e))
  | some "yaml" | some "yml" =>
    match Yaml.read .table content with
    | .ok d => docsOf d
    | .error e => .error (.serialization (.yaml e))
  | _ => .error (.invalidArgument (unsupportedFormat path))

/-- The documentation map of a file. -/
def loadDocs (files : FileSystem) (path : String) : Except Error DocMap :=
  match files.readText path with
  | .ok content => readDocs path content
  | .error e => .error (.unreadable path e)

end DocBlocks
