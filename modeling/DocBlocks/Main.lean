import DocBlocks.Command.Run

/-
  The program.

  What a command needs is read from the disk, the command runs on that picture of it, and the file
  that it wrote is written to the disk.
-/

namespace DocBlocks.Program

/-- What a path of the disk leads to. Of a directory only what a scan looks at is read. -/
partial def loadEntry (path : String) : IO Entry := do
  let place ← IO.FS.realPath path
  if ← place.isDir then
    let mut entries := []
    for found in ← place.readDir do
      let name := found.fileName
      let inner := joinPath path name
      let isDir ← (← IO.FS.realPath inner).isDir
      if if isDir then isEntered name else isSourceName name then
        entries := Entry.insertEntry name (← loadEntry inner) entries
    pure (.directory newDirectoryMode entries)
  else pure (.file newFileMode (← IO.FS.readBinFile path))

/-- Puts what a path leads to into a picture of the disk. -/
def loadPath (path : String) (files : FileSystem) : IO FileSystem := do
  try
    let e ← loadEntry path
    let dir := directoryOf path
    let (_, files) := (Change.makeDirectories (dir.length + 1) dir).run files
    match files.targetOf false path with
    | .ok (.vacant dir name) => pure (files.put (dir ++ [name]) e)
    | _ => pure files
  catch _ => pure files

/-- Puts a directory without its entries into a picture of the disk. -/
def loadDirectory (path : String) (files : FileSystem) : IO FileSystem := do
  try
    let place ← IO.FS.realPath path
    if ← place.isDir then pure ((Change.makeDirectories (path.length + 1) path).run files).2
    else pure files
  catch _ => pure files

/-- The picture of an empty disk, with the current directory. -/
def emptyDisk : IO FileSystem := do
  let here ← IO.FS.realPath "."
  let pieces := (pathPieces here.toString).filter (· != "")
  let root := pieces.foldr (fun name e => Entry.directory newDirectoryMode [(name, e)])
    (.directory newDirectoryMode [])
  pure ⟨root, pieces⟩

/-- The picture of the disk that a command needs. -/
def loadFiles : Command → IO FileSystem
  | .extract path _ _ => do loadPath path (← emptyDisk)
  | .write file docs output _ => do
    loadDirectory (directoryOf (output.getD file)) (← loadPath docs (← loadPath file (← emptyDisk)))

/-- Writes a file of the picture to the disk. -/
def storeFile (files : FileSystem) (path : String) (inOneStep : Bool) : IO Unit := do
  match files.find path with
  | .ok (.file _ content) =>
    if inOneStep then
      let temporary := joinPath (directoryOf path) ".docblocks.tmp"
      IO.FS.writeBinFile temporary content
      IO.FS.rename temporary path
    else
      IO.FS.createDirAll (directoryOf path)
      IO.FS.writeBinFile path content
  | _ => pure ()

/-- Writes what a command wrote to the disk. -/
def storeFiles (files : FileSystem) : Command → IO Unit
  | .extract _ _ (some output) => storeFile files output false
  | .extract _ _ none => pure ()
  | .write file _ output dryRun =>
    if dryRun then pure () else storeFile files (output.getD file) true

end DocBlocks.Program

open DocBlocks DocBlocks.Program in
/-- Reads the arguments, runs the command and tells how it went. -/
def main (args : List String) : IO UInt32 := do
  match readArguments args with
  | .error refusal =>
    match refusal.output? with
    | some text => IO.print text
    | none => IO.eprintln ("error: " ++ refusal.name)
    pure refusal.exitCode.toUInt32
  | .ok invocation =>
    let (result, session) := invocation.execute.run (.start (← loadFiles invocation.command))
    for line in session.log do
      IO.eprintln ("[" ++ line.level.label ++ "] " ++ line.text)
    match result with
    | .ok _ =>
      storeFiles session.files invocation.command
      IO.print session.output
      pure 0
    | .error failure =>
      IO.print session.output
      for line in failure.report do
        IO.eprintln line
      pure 1
