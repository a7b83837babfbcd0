import DocBlocks.Format.Json.Decode
import DocBlocks.Format.Yaml.Decode
import DocBlocks.Store.Resolve
import DocBlocks.Syntax.Parse

/-
  What can go wrong.

  Work on a text in memory has the path `inMemoryPath` in its errors; `Error.withPath` puts in the
  path of the file that the text was read from.
-/

namespace DocBlocks

/-- The path in the errors of a text that is in no file. -/
def inMemoryPath : String := "<input>"

/-- The reasons why a written format cannot be read. -/
inductive FormatFault where
  | json (cause : Json.Error)
  | yaml (cause : Yaml.Error)
  /-- A reason given by somebody else. -/
  | stated (reason : String)

/-- A reason in words. -/
def FormatFault.message : FormatFault → String
  | json cause => "JSON: " ++ cause.message
  | yaml cause => "YAML: " ++ cause.message
  | stated reason => reason

/-- The errors of the library. -/
inductive Error where
  | unreadable (path : String) (cause : IoFault)
  | unparsable (path : String) (cause : ParseFault)
  | noClass (path : String)
  | destinationMissing (dir : String)
  | destinationNotWritable (dir : String) (reason : String)
  | unwritable (path : String) (cause : IoFault)
  | serialization (cause : FormatFault)
  | invalidArgument (reason : String)

namespace Error

/-- The name of an error in reports. -/
def code : Error → String
  | unreadable _ _ => "IO_ERROR"
  | unparsable _ _ => "PARSE_ERROR"
  | noClass _ => "NO_CLASS_DECLARATION"
  | destinationMissing _ => "DESTINATION_MISSING"
  | destinationNotWritable _ _ => "DESTINATION_NOT_WRITABLE"
  | unwritable _ _ => "WRITE_ERROR"
  | serialization _ => "SERIALIZATION_ERROR"
  | invalidArgument _ => "INVALID_ARGUMENT"

/-- A path in quotes. -/
def quoted (path : String) : String := "'" ++ path ++ "'"

/-- An error in words. -/
def message : Error → String
  | unreadable path cause => "Failed to read " ++ quoted path ++ ": " ++ cause.message
  | unparsable path cause => "Failed to parse " ++ quoted path ++ ": " ++ cause.message
  | noClass path => "No class declaration found in " ++ quoted path
  | destinationMissing dir => "Output directory does not exist: " ++ dir
  | destinationNotWritable dir reason =>
    "Output directory is not writable: " ++ dir ++ " (" ++ reason ++ ")"
  | unwritable path cause => "Failed to write " ++ quoted path ++ ": " ++ cause.message
  | serialization cause => "Serialization error: " ++ cause.message
  | invalidArgument reason => "Invalid argument: " ++ reason

/-- The refusal of the file system behind an error. -/
def cause? : Error → Option IoFault
  | unreadable _ cause => some cause
  | unwritable _ cause => some cause
  | _ => none

/-- The error and what is behind it, in words. -/
def chain (e : Error) : List String :=
  e.message :: (e.cause?.map IoFault.message).toList

/-- An error about a text in memory as one about the file that it was read from. -/
def withPath (path : String) : Error → Error
  | unparsable _ cause => unparsable path cause
  | noClass _ => noClass path
  | e => e

end Error

end DocBlocks
