import DocBlocks.Project.Source

/-
  Writing files.

  A documented source replaces its file in one step: the text goes to a temporary file in the same
  directory, and that file is moved to its place. A failure takes the temporary file away.
-/

namespace DocBlocks

/-- A name that a directory does not hold: `.tmp` with dots behind it. -/
def freshName (entries : List (String × Entry)) : String :=
  entries.foldl (fun name (n, _) => if n.length < name.length then name else n ++ ".") ".tmp"

/-- The permissions of what a path leads to, or those of a temporary file. -/
def modeAt (files : FileSystem) (path : String) : Nat :=
  match files.find path with
  | .ok e => e.mode
  | .error _ => temporaryMode

/-- Replaces the file at a path in one step. -/
def replaceFile (destination content : String) : Work Error Unit := do
  let dir := directoryOf destination
  let files ← Work.files
  match files.locate dir with
  | .error _ => throw (.destinationMissing dir)
  | .ok l =>
    match files.root.at? l with
    | some (.directory mode es) =>
      if isReadOnly mode then
        throw (.destinationNotWritable dir "directory is read-only")
      let temporary := l ++ [freshName es]
      Work.change (.unwritable destination)
        (Change.put temporary (.file (modeAt files destination) content.toUTF8))
      tryCatch (Work.change (.unwritable destination) (Change.moveFile temporary destination))
        fun e => do
          Work.change (.unwritable destination) (Change.remove temporary)
          throw e
    | _ => throw (.destinationMissing dir)

/-- Writes documentation into a file, or into a copy of it at another path, given a way of reading
sources. The answer is the path that was written. -/
def writeFileWith (read : String → Option RangedTree) (path : String) (docs : DocMap)
    (output : Option String) : Work Error String := do
  let source ← Work.ofExcept (.unreadable path) ((← Work.files).readText path)
  let text ← Work.describing (Error.withPath path) (writeDocsWith read source docs).finish
  let destination := output.getD path
  replaceFile destination text
  Work.info ("Documentation written to " ++ destination)
  pure destination

/-- Writes documentation into a file, or into a copy of it at another path. -/
def writeFile (path : String) (docs : DocMap) (output : Option String) : Work Error String :=
  writeFileWith sourceRanges? path docs output

/-- Writes a report, with the directories above it. -/
def writeReport (content path : String) : Work Error Unit := do
  if let some parent := parentPath? path then
    Work.change (.unwritable path) (Change.makeDirectories (parent.length + 1) parent)
  Work.change (.unwritable path) (Change.writeFile path content.toUTF8)

end DocBlocks
