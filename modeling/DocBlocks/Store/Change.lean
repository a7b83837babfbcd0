import DocBlocks.Store.Resolve

/-
  Changes of the file system.

  Every change tells the new file system also when it fails, so that what a failure leaves behind
  can be told.
-/

namespace DocBlocks

/-- The permissions of a new file. -/
def newFileMode : Nat := 0o644

/-- The permissions of a new directory. -/
def newDirectoryMode : Nat := 0o755

/-- The permissions of a new temporary file. -/
def temporaryMode : Nat := 0o600

/-- Whether permissions let nobody write. -/
def isReadOnly (mode : Nat) : Bool := mode &&& 0o222 == 0

/-- A change of the file system that may fail. -/
abbrev Change (α : Type) := ExceptT IoFault (StateM FileSystem) α

namespace FileSystem

/-- Puts an entry at a location. -/
def put (fs : FileSystem) (l : Location) (e : Entry) : FileSystem :=
  { fs with root := Entry.put e l fs.root }

/-- Takes the entry at a location away. -/
def remove (fs : FileSystem) (l : Location) : FileSystem :=
  { fs with root := Entry.remove l fs.root }

end FileSystem

namespace Change

/-- Puts an entry at a location. -/
def put (l : Location) (e : Entry) : Change Unit := modify fun fs => fs.put l e

/-- Takes the entry at a location away. -/
def remove (l : Location) : Change Unit := modify fun fs => fs.remove l

/-- Makes a directory. -/
def makeDirectory (path : String) : Change Unit := do
  match (← get).targetOf false path with
  | .error e => throw e
  | .ok (.there _) => throw .alreadyThere
  | .ok (.vacant dir name) => put (dir ++ [name]) (.directory newDirectoryMode [])

/-- Makes a directory, where it does not matter whether it is there already. -/
def ensureDirectory (path : String) : Change Unit :=
  tryCatch (makeDirectory path) fun e => do
    if (← get).isDirectory path then pure () else throw e

/-- Makes a directory with those above it. `depth` bounds how many there are. -/
def makeDirectories : (depth : Nat) → (path : String) → Change Unit
  | 0, _ => throw .notFound
  | depth + 1, path =>
    if path = "" then pure ()
    else tryCatch (ensureDirectory path) fun e =>
      if e = .notFound then
        match parentPath? path with
        | none => throw e
        | some parent => do
          makeDirectories depth parent
          ensureDirectory path
      else throw e

/-- Writes a file, which keeps its permissions. -/
def writeFile (path : String) (content : ByteArray) : Change Unit := do
  match (← get).targetOf true path with
  | .error e => throw e
  | .ok target =>
    if FileSystem.endsInSlash path then throw .isDirectory
    else match target with
      | .vacant dir name => put (dir ++ [name]) (.file newFileMode content)
      | .there l =>
        match (← get).root.at? l with
        | some (.file mode _) => put l (.file mode content)
        | _ => throw .isDirectory

/-- Whether a path ends in a piece that names nothing of its own. -/
def endsInDots (path : String) : Bool :=
  match (FileSystem.stepsOf path).getLast? with
  | some p => p == "." || p == ".."
  | none => true

/-- Moves a file to a path. A link or a file that stands there is replaced. -/
def moveFile (source : Location) (path : String) : Change Unit := do
  let fs ← get
  match fs.targetOf false path with
  | .error e => throw e
  | .ok target =>
    if endsInDots path then throw .busy
    else if FileSystem.endsInSlash path then throw .notDirectory
    else
      let l := match target with
        | .there l => l
        | .vacant dir name => dir ++ [name]
      match fs.root.at? source, fs.root.at? l with
      | _, some (.directory _ _) => throw .isDirectory
      | none, _ => throw .notFound
      | some e, _ => do
        remove source
        put l e

end Change

end DocBlocks
