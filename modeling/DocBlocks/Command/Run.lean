import DocBlocks.Command.Arguments
import DocBlocks.Format.Json.Write
import DocBlocks.Format.Yaml.Write
import DocBlocks.Project.Docs
import DocBlocks.Project.Replace
import DocBlocks.Project.Scan

/-
  Running commands.
-/

namespace DocBlocks

/-- The reasons why a command fails. -/
inductive Failure where
  | stated (message : String)
  | known (error : Error)
  /-- An error in a step that is told as well. -/
  | during (step : String) (error : Error)
  /-- A file could not be read in a step. -/
  | unread (step : String) (cause : IoFault)

namespace Failure

/-- The failure and what is behind it, in words. -/
def chain : Failure → List String
  | stated message => [message]
  | known e => e.chain
  | during step e => step :: e.chain
  | unread step cause => [step, cause.message]

/-- The name of a failure in reports. -/
def code : Failure → String
  | known e => e.code
  | during _ e => e.code
  | _ => "OTHER"

/-- A text with the given texts in front of its lines: one for the first line, and one for the
others. -/
def indented (first rest : String) (text : String) : List String :=
  match text.splitOn "\n" with
  | [] => [first]
  | l :: ls => (first ++ l) :: ls.map (rest ++ ·)

/-- The causes of a failure, numbered. -/
def numbered (n : Nat) : List String → List String
  | [] => []
  | c :: cs =>
    indented (String.ofList (List.replicate (5 - (toString n).length) ' ') ++ toString n ++ ": ")
      "       " c ++ numbered (n + 1) cs

/-- The lines that tell a failure. -/
def report (f : Failure) : List String :=
  match f.chain with
  | [] => []
  | message :: causes =>
    ("Error: " ++ message).splitOn "\n" ++ match causes with
      | [] => []
      | [cause] => "" :: "Caused by:" :: indented "    " "    " cause
      | causes => "" :: "Caused by:" :: numbered 0 causes

end Failure

/-- A description or a list of them, in a written format. -/
def OutputFormat.write (format : OutputFormat) (d : Data) : String :=
  match format with
  | yaml => Yaml.write d
  | json => Json.write d

/-! ### Checking -/

/-- Checks that what a command needs is there, and logs what it is about to do. -/
def Command.check : Command → Work Failure Unit
  | extract path format output => do
    if !(← Work.files).holds path then throw (.stated ("Path does not exist: " ++ path))
    Work.info ("Input: " ++ path)
    Work.info ("Output format: " ++ format.label)
    match output with
    | some file => Work.info ("Output file: " ++ file)
    | none => Work.info "Output: stdout"
  | write file docs output dryRun => do
    if !(← Work.files).isFile file then
      throw (.stated ("Controller file does not exist: " ++ file))
    if !(← Work.files).isFile docs then
      throw (.stated ("Documentation map does not exist: " ++ docs))
    Work.info ("Controller: " ++ file)
    Work.info ("Documentation map: " ++ docs)
    if dryRun then Work.info "Dry run: nothing will be written"
    else Work.info ("Output file: " ++ output.getD file)

/-! ### Extracting -/

/-- Describes the classes of files. A file without a class is passed over, and one that cannot be
described gives a warning. -/
def extractFiles : List String → Work Failure (List ClassDescriptor)
  | [] => pure []
  | file :: files => do
    match extractFile (← Work.files) file with
    | .ok c => pure (c :: (← extractFiles files))
    | .error (.noClass _) => extractFiles files
    | .error e => do
      Work.warn ("Skipping " ++ file ++ ": " ++ e.message)
      extractFiles files

/-- The report on a directory. -/
def directoryReport (path : String) : Work Failure Data := do
  Work.info "Scanning directory..."
  let found ← scanLogged path
  Work.info ("Found " ++ toString found.files.length ++ " PHP files")
  if found.files.isEmpty then throw (.stated ("No PHP files found in " ++ path))
  let classes ← extractFiles found.files
  Work.info ("Extracted " ++ toString classes.length ++ " classes")
  if classes.isEmpty then
    throw (.stated ("No controller classes could be extracted from " ++ path))
  pure (.list (classes.map ClassDescriptor.toData))

/-- The report on a file. -/
def fileReport (path : String) : Work Failure Data := do
  let c ← Work.ofExcept (.during ("Failed to extract controller from " ++ path))
    (extractFile (← Work.files) path)
  Work.info ("Found " ++ c.className ++ " with " ++ toString c.methods.length ++
    " public methods")
  pure c.toData

/-- Writes a report on a file or a directory. -/
def runExtract (path : String) (format : OutputFormat) (output : Option String) :
    Work Failure Unit := do
  let report ← if (← Work.files).isDirectory path then directoryReport path else fileReport path
  let content := format.write report
  match output with
  | some file => do
    Work.info ("Writing output to: " ++ file)
    Work.describing .known (writeReport content file)
  | none => Work.print (content ++ "\n")

/-! ### Writing -/

/-- Prints the documented source of a file. -/
def runDryWrite (file : String) (docs : DocMap) : Work Failure Unit := do
  let source ← Work.ofExcept (.unread ("Failed to read " ++ file)) ((← Work.files).readText file)
  let text ← Work.describing (fun e => .during "Failed to render documentation" (e.withPath file))
    (writeText source docs)
  Work.print text
  Work.warn "No files were modified (dry-run mode)"

/-- Writes documentation into a file. -/
def runWrite (file docs : String) (output : Option String) (dryRun : Bool) :
    Work Failure Unit := do
  let docs ← Work.ofExcept .known (loadDocs (← Work.files) docs)
  Work.info ("Loaded documentation for " ++ toString docs.entries.length ++ " methods")
  if dryRun then runDryWrite file docs
  else do
    let written ← Work.describing .known (writeFile file docs output)
    Work.info ("Documentation written to " ++ written)

/-- Runs a command whose needs were checked. -/
def Command.run : Command → Work Failure Unit
  | extract path format output => runExtract path format output
  | write file docs output dryRun => runWrite file docs output dryRun

/-- Checks and runs a command. -/
def Command.execute (c : Command) : Work Failure Unit := do
  c.check
  c.run

/-- Runs the program for a command. -/
def Invocation.execute (i : Invocation) : Work Failure Unit := do
  Work.info "Controller doc generator starting..."
  i.command.execute

end DocBlocks
