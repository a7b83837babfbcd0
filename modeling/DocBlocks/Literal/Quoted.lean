import DocBlocks.Number.Text
import DocBlocks.Token.Character

/-
  The texts that quoted literals stand for.

  Between single quotes a backslash protects a backslash or a quote and stands for itself
  otherwise. Between double quotes it also begins escapes for control characters, bytes and
  characters; what looks like an escape and is none stays as it is written. Escapes for bytes may
  add up to something that is no text at all.
-/

namespace DocBlocks

/-- Drops the letter that marks a byte string. -/
def dropByteMark : List Char → List Char
  | 'b' :: cs => cs
  | 'B' :: cs => cs
  | cs => cs

/-- The text between two quotes, or the text itself if it does not stand between two. -/
def betweenQuotes (quote : Char) (cs : List Char) : List Char :=
  match cs with
  | c :: rest =>
    if c == quote && rest.getLast? == some quote then rest.dropLast else cs
  | [] => []

/-- Takes the quotes off a literal. -/
def unquote (quote : Char) (cs : List Char) : List Char :=
  betweenQuotes quote (dropByteMark cs)

/-! ### Single quotes -/

/-- The text that the inside of a single-quoted literal stands for. -/
def unescapeSingle : List Char → List Char
  | '\\' :: '\\' :: cs => '\\' :: unescapeSingle cs
  | '\\' :: '\'' :: cs => '\'' :: unescapeSingle cs
  | c :: cs => c :: unescapeSingle cs
  | [] => []

/-- The text that a single-quoted literal stands for. -/
def decodeSingleQuoted (s : String) : String :=
  String.ofList (unescapeSingle (unquote '\'' s.toList))

/-! ### Double quotes -/

/-- The bytes of a text. -/
def bytesOf (cs : List Char) : List UInt8 :=
  cs.flatMap String.utf8EncodeChar

/-- The byte that one character behind a backslash stands for. -/
def plainEscape? : Char → Option UInt8
  | 'n' => some 0x0A
  | 't' => some 0x09
  | 'r' => some 0x0D
  | 'v' => some 0x0B
  | 'e' => some 0x1B
  | 'f' => some 0x0C
  | '\\' => some 0x5C
  | '$' => some 0x24
  | '"' => some 0x22
  | _ => none

/-- Splits off the digits of a class at the front, up to a number of them. -/
def takeEscapeDigits (isDigit : Char → Bool) (most : Nat) (cs : List Char) :
    List Char × List Char :=
  let digits := (cs.take most).takeWhile isDigit
  (digits, cs.drop digits.length)

/-- The character with a hexadecimal number, which may carry a plus sign. -/
def scalarOfHex? (digits : List Char) : Option Char :=
  let digits := match digits with
    | '+' :: ds => ds
    | ds => ds
  (readDigits? 16 digits).bind fun n =>
    if n.isValidChar then some (Char.ofNat n) else none

/-- An escape by hexadecimal digits: one byte, or the letters themselves if no digit follows. -/
def hexEscape (cs : List Char) : List UInt8 × List Char :=
  let (digits, rest) := takeEscapeDigits isHexDigit 2 cs
  match readDigits? 16 digits with
  | some n => ([n.toUInt8], rest)
  | none => (bytesOf ['\\', 'x'], rest)

/-- An escape by octal digits: one byte, of which only the low eight bits count. -/
def octalEscape (cs : List Char) : List UInt8 × List Char :=
  let (digits, rest) := takeEscapeDigits isOctalDigit 3 cs
  (((readDigits? 8 digits).getD 0).toUInt8 :: [], rest)

/-- An escape by a character number between braces. A closing brace is read or made up. -/
def scalarEscape : List Char → List UInt8 × List Char
  | '{' :: cs =>
    let digits := cs.takeWhile (· != '}')
    let rest := cs.drop (digits.length + 1)
    match scalarOfHex? digits with
    | some c => (bytesOf [c], rest)
    | none => (bytesOf (['\\', 'u', '{'] ++ digits ++ ['}']), rest)
  | cs => (bytesOf ['\\', 'u'], cs)

/-- What a backslash and the characters behind it stand for, and the rest. -/
def escapeAt : List Char → List UInt8 × List Char
  | [] => (bytesOf ['\\'], [])
  | c :: cs =>
    match plainEscape? c with
    | some b => ([b], cs)
    | none =>
      if c == 'x' then hexEscape cs
      else if c == 'u' then scalarEscape cs
      else if isOctalDigit c then octalEscape (c :: cs)
      else (bytesOf ['\\'], c :: cs)

theorem length_hexEscape_le (cs : List Char) : (hexEscape cs).2.length ≤ cs.length := by
  unfold hexEscape takeEscapeDigits
  dsimp only
  split <;> simp

theorem length_octalEscape_le (cs : List Char) : (octalEscape cs).2.length ≤ cs.length := by
  simp [octalEscape, takeEscapeDigits]

theorem length_scalarEscape_le (cs : List Char) : (scalarEscape cs).2.length ≤ cs.length := by
  unfold scalarEscape
  split
  · dsimp only
    split <;> simp <;> omega
  · simp

/-- **An escape takes characters off and adds none.** -/
theorem length_escapeAt_le (cs : List Char) : (escapeAt cs).2.length ≤ cs.length := by
  unfold escapeAt
  split
  · simp
  · next c cs =>
    split
    · simp
    · split
      · exact Nat.le_succ_of_le (length_hexEscape_le cs)
      · split
        · exact Nat.le_succ_of_le (length_scalarEscape_le cs)
        · split
          · exact length_octalEscape_le (c :: cs)
          · simp

/-- The bytes that the inside of a double-quoted literal stands for. -/
def unescapeDouble : List Char → List UInt8
  | [] => []
  | c :: cs =>
    if c = '\\' then (escapeAt cs).1 ++ unescapeDouble (escapeAt cs).2
    else String.utf8EncodeChar c ++ unescapeDouble cs
  termination_by cs => cs.length
  decreasing_by
    · have := length_escapeAt_le cs
      simp only [List.length_cons]
      omega
    · simp

/-- The text with the given bytes, if there is one. -/
def textOfBytes? (bytes : List UInt8) : Option String :=
  String.fromUTF8? ⟨bytes.toArray⟩

/-- The text that a double-quoted literal stands for. -/
def decodeDoubleQuoted? (s : String) : Option String :=
  textOfBytes? (unescapeDouble (unquote '"' s.toList))

end DocBlocks
