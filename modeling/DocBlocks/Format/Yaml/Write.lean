import DocBlocks.Format.Data
import DocBlocks.Format.Yaml.Scalar

/-
  Data as YAML in block style.

  A text takes the plainest style that reads back as itself: plain, between single quotes, or
  between double quotes; one with line feeds is a literal block where that is possible.
-/

namespace DocBlocks.Yaml

/-- Numbers are positional from 0.00001 to below ten to the sixteenth. -/
def numberStyle : NumberStyle := ⟨-5, 16, false, false, ".inf", "-.inf", ".nan"⟩

/-! ### Styles of text -/

/-- Whether some character has a property that depends on the characters next to it. The first two
arguments are the property and the character before, if there is one. -/
def anyNext (p : Option Char → Char → Option Char → Bool) (before : Option Char) :
    List Char → Bool
  | [] => false
  | c :: cs => p before c cs.head? || anyNext p (some c) cs

/-- Whether the end of a text or something blank is there. -/
def isBlankOrEnd : Option Char → Bool
  | none => true
  | some c => isBlank c || isBreak c || c.toNat == 0

/-- The characters that no plain text begins with. -/
def openingIndicators : List Char := "#,[]\x7b\x7d&*!|>'\"%@\x60".toList

/-- Whether a character takes part in the structure of a document. -/
def isIndicator (before : Option Char) (c : Char) (after : Option Char) : Bool :=
  (c == ':' && isBlankOrEnd after) ||
    match before with
    | none =>
      openingIndicators.contains c || ((c == '?' || c == '-') && isBlankOrEnd after)
    | some b => c == '#' && isBlankOrEnd (some b)

/-- Whether a text begins like the mark between two documents. -/
def opensDocument (cs : List Char) : Bool :=
  ['-', '-', '-'].isPrefixOf cs || ['.', '.', '.'].isPrefixOf cs

/-- Whether the character is a blank or a break at one of the ends. -/
def isBlankEnd (c : Option Char) : Bool :=
  match c with
  | some c => c == ' ' || isBreak c
  | none => false

/-- Whether a blank stands right before a break. -/
def hasBlankBeforeBreak (cs : List Char) : Bool :=
  anyNext (fun _ c after => c == ' ' && after.any isBreak) none cs

/-- Whether a blank stands right behind a break. -/
def hasBlankAfterBreak (cs : List Char) : Bool :=
  anyNext (fun before c _ => c == ' ' && before.any isBreak) none cs

/-- Whether a text can stand without quotes. -/
def allowsPlain (cs : List Char) : Bool :=
  cs.all (fun c => isPrintable c && !isBreak c) && !isBlankEnd cs.head? &&
    !isBlankEnd cs.getLast? && !opensDocument cs && !anyNext isIndicator none cs

/-- Whether a text can stand between single quotes. -/
def allowsSingle (cs : List Char) : Bool :=
  cs.all isPrintable && !hasBlankBeforeBreak cs && !hasBlankAfterBreak cs

/-- Whether a text can be a literal block. -/
def allowsLiteral (cs : List Char) : Bool :=
  cs.all isPrintable && !hasBlankBeforeBreak cs && cs.getLast? != some ' '

/-- The styles of a text. -/
inductive TextStyle where
  | plain
  | single
  | double
  | literal
  deriving DecidableEq, Repr

/-- The style of a text. -/
def styleOf (s : String) : TextStyle :=
  let cs := s.toList
  if cs.contains '\n' then if allowsLiteral cs then .literal else .double
  else
    let bare := readScalar s == .text && !isPaddedDigits cs && allowsPlain cs
    if bare then .plain else if allowsSingle cs then .single else .double

/-! ### Quoted texts -/

/-- Blanks. -/
def indentation (n : Nat) : List Char := List.replicate n ' '

/-- A text between single quotes. Behind a break the line is indented. -/
def singleQuoted (indent : Nat) (afterBreak : Bool) : List Char → List Char
  | [] => if afterBreak then indentation indent else []
  | c :: cs =>
    if isBreak c then c :: singleQuoted indent true cs
    else
      (if afterBreak then indentation indent else []) ++
        (if c == '\'' then ['\'', '\''] else [c]) ++ singleQuoted indent false cs

/-- The characters with an escape of their own. -/
def namedEscapes : List (Nat × Char) :=
  [(0x00, '0'), (0x07, 'a'), (0x08, 'b'), (0x09, 't'), (0x0A, 'n'), (0x0B, 'v'), (0x0C, 'f'),
   (0x0D, 'r'), (0x1B, 'e'), (0x22, '"'), (0x5C, '\\'), (0x85, 'N'), (0xA0, '_'), (0x2028, 'L'),
   (0x2029, 'P')]

/-- A number in upper-case hexadecimal digits of a given count. -/
def hexDigits (count n : Nat) : List Char :=
  let digits := (Nat.toDigits 16 n).map Char.toUpper
  List.replicate (count - digits.length) '0' ++ digits

/-- A character between double quotes. -/
def escapeChar (c : Char) : List Char :=
  if isPrintable c && !isBreak c && c != '"' && c != '\\' then [c]
  else match namedEscapes.lookup c.toNat with
    | some e => ['\\', e]
    | none =>
      if c.toNat ≤ 0xFF then ['\\', 'x'] ++ hexDigits 2 c.toNat
      else if c.toNat ≤ 0xFFFF then ['\\', 'u'] ++ hexDigits 4 c.toNat
      else ['\\', 'U'] ++ hexDigits 8 c.toNat

/-! ### Literal blocks -/

/-- The sign for the breaks at the end of a literal block. -/
def chomping (cs : List Char) : List Char :=
  match cs.reverse with
  | [] => ['-']
  | c :: rest =>
    if !isBreak c then ['-']
    else if rest.isEmpty || rest.head?.any isBreak then ['+'] else []

/-- The head of a literal block. -/
def literalHead (cs : List Char) : List Char :=
  '|' :: (if isBlankEnd cs.head? then ['2'] else []) ++ chomping cs

/-- The lines of a literal block. Empty lines are not indented. -/
def literalBody (indent : Nat) (afterBreak : Bool) : List Char → List Char
  | [] => []
  | c :: cs =>
    if isBreak c then c :: literalBody indent true cs
    else (if afterBreak then indentation indent else []) ++ c :: literalBody indent false cs

/-- A text in its style. The indentation is that of further lines. A literal block leaves the cursor
behind its last line break or in front of the next one. -/
def writeText (indent : Nat) (s : String) : List Char :=
  let cs := s.toList
  match styleOf s with
  | .plain => cs
  | .single => '\'' :: singleQuoted indent false cs ++ ['\'']
  | .double => '"' :: cs.flatMap escapeChar ++ ['"']
  | .literal => literalHead cs ++ '\n' :: literalBody indent true cs

/-- Ends the line that a value was written on, unless it is ended already. -/
def endLine (cs : List Char) : List Char :=
  if cs.getLast?.any isBreak then cs else cs ++ ['\n']

/-! ### Data -/

/-- A value that stands on one line, or on its own lines as a literal block. -/
def writeSimple? (indent : Nat) : Data → Option (List Char)
  | .null => some "null".toList
  | .flag b => some (if b then "true" else "false").toList
  | .integer i => some (toString i).toList
  | .float x => some (numberStyle.write x).toList
  | .text s => some (writeText indent s)
  | .list [] => some ['[', ']']
  | .record [] => some ['\x7b', '\x7d']
  | _ => none

mutual

/-- The lines of a list or record that starts at the cursor. Its further lines are indented. -/
def writeBlock (indent : Nat) : Data → List Char
  | .list (d :: ds) => writeItem indent d ++ writeItems indent ds
  | .record (f :: fs) => writeField indent f ++ writeFields indent fs
  | d => endLine ((writeSimple? indent d).getD [])

/-- An item of a list. -/
def writeItem (indent : Nat) (d : Data) : List Char :=
  match writeSimple? (indent + 2) d with
  | some cs => endLine (['-', ' '] ++ cs)
  | none => ['-', ' '] ++ writeBlock (indent + 2) d

/-- Items of a list behind the first one. -/
def writeItems (indent : Nat) : List Data → List Char
  | [] => []
  | d :: ds => indentation indent ++ writeItem indent d ++ writeItems indent ds

/-- A field of a record. A list in it is not indented any further. -/
def writeField (indent : Nat) (f : String × Data) : List Char :=
  match f with
  | (name, d) =>
    match writeSimple? (indent + 2) d with
    | some cs => endLine (writeText indent name ++ [':', ' '] ++ cs)
    | none =>
      let inner := match d with
        | .list _ => indent
        | _ => indent + 2
      writeText indent name ++ [':', '\n'] ++ indentation inner ++ writeBlock inner d

/-- Fields of a record behind the first one. -/
def writeFields (indent : Nat) : List (String × Data) → List Char
  | [] => []
  | f :: fs => indentation indent ++ writeField indent f ++ writeFields indent fs

end

/-- Data as YAML. -/
def write (d : Data) : String := String.ofList (writeBlock 0 d)

end DocBlocks.Yaml
