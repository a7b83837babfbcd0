/-
  The help pages of the program.
-/

namespace DocBlocks

/-- The things that there is a help page for. -/
inductive Topic where
  | program
  | extract
  | write
  | help
  deriving DecidableEq, Repr

/-- The name of the program with its version. -/
def versionText : String := "controller-docgen 0.1.0\n"

namespace Topic

/-- Lines as a text. -/
def page (lines : List String) : String :=
  String.join (lines.map (· ++ "\n"))

/-- The help page of the program. -/
def programPage : List String :=
  [ "Extracts handler metadata from PHP controllers and writes generated doc blocks back into " ++
      "the source",
    "",
    "Usage: controller-docgen [OPTIONS] <COMMAND>",
    "",
    "Commands:",
    "  extract  Describe the controller class of a file, or of every PHP file in a directory",
    "  write    Insert documentation blocks from a JSON or YAML map into a controller file",
    "  help     Print this message or the help of the given subcommand(s)",
    "",
    "Options:",
    "  -v, --verbose  Enable verbose output",
    "  -h, --help     Print help",
    "  -V, --version  Print version" ]

/-- The short help page of `extract`. -/
def extractPage : List String :=
  [ "Describe the controller class of a file, or of every PHP file in a directory",
    "",
    "Usage: controller-docgen extract [OPTIONS] <PATH>",
    "",
    "Arguments:",
    "  <PATH>  Controller file or directory to scan",
    "",
    "Options:",
    "  -f, --format <OUTPUT_FORMAT>  Output format (yaml or json) [default: yaml] " ++
      "[possible values: yaml, json]",
    "  -o, --output <FILE>           Output file path (if not specified, outputs to stdout)",
    "  -v, --verbose                 Enable verbose output",
    "  -h, --help                    Print help (see more with '--help')" ]

/-- The long help page of `extract`. -/
def longExtractPage : List String :=
  [ "Describe the controller class of a file, or of every PHP file in a directory",
    "",
    "Usage: controller-docgen extract [OPTIONS] <PATH>",
    "",
    "Arguments:",
    "  <PATH>",
    "          Controller file or directory to scan",
    "",
    "Options:",
    "  -f, --format <OUTPUT_FORMAT>",
    "          Output format (yaml or json)",
    "",
    "          Possible values:",
    "          - yaml: YAML format",
    "          - json: JSON format",
    "          ",
    "          [default: yaml]",
    "",
    "  -o, --output <FILE>",
    "          Output file path (if not specified, outputs to stdout)",
    "",
    "  -v, --verbose",
    "          Enable verbose output",
    "",
    "  -h, --help",
    "          Print help (see a summary with '-h')" ]

/-- The help page of `write`. -/
def writePage : List String :=
  [ "Insert documentation blocks from a JSON or YAML map into a controller file",
    "",
    "Usage: controller-docgen write [OPTIONS] --docs <MAP> <FILE>",
    "",
    "Arguments:",
    "  <FILE>  Controller file to document",
    "",
    "Options:",
    "  -d, --docs <MAP>     Documentation map file: method name -> doc text",
    "  -o, --output <FILE>  Write to this path instead of updating FILE in place",
    "      --dry-run        Print the documented source instead of writing it",
    "  -v, --verbose        Enable verbose output",
    "  -h, --help           Print help" ]

/-- The help page of `help`. -/
def helpPage : List String :=
  [ "Print this message or the help of the given subcommand(s)",
    "",
    "Usage: controller-docgen help [COMMAND]...",
    "",
    "Arguments:",
    "  [COMMAND]...  Print help for the subcommand(s)" ]

/-- The help page of a topic. Only `extract` has a long one. -/
def text (topic : Topic) (long : Bool) : String :=
  page <| match topic with
    | program => programPage
    | extract => if long then longExtractPage else extractPage
    | write => writePage
    | help => helpPage

end Topic

end DocBlocks
