/-
  Character classes of the token rules.
-/

namespace DocBlocks

/-- The blanks of the six control and space characters. -/
def isAsciiBlank (c : Char) : Bool :=
  (9 ≤ c.toNat && c.toNat ≤ 13) || c == ' '

/-- The line breaks. -/
def isLineBreak (c : Char) : Bool := c == '\n' || c == '\r'

/-- The characters that may stand between tokens. -/
def isLayout (c : Char) : Bool :=
  let n := c.toNat
  isAsciiBlank c || n == 0xA0 || n == 0x200B || n == 0x2060 || n == 0xFEFF

/-- Beyond ASCII, names are made of the characters of the basic plane that are not layout. -/
def isWideNameChar (c : Char) : Bool :=
  0x80 ≤ c.toNat && c.toNat ≤ 0xFFFF && !isLayout c

/-- The characters that begin a name. -/
def isNameStart (c : Char) : Bool :=
  c.isAlpha || c == '_' || isWideNameChar c

/-- The characters that continue a name. -/
def isNameChar (c : Char) : Bool :=
  isNameStart c || c.isDigit

/-- The characters that make up the label of a heredoc. In a template they also show that a dollar
sign opens a variable, unless they are digits. -/
def isLabelChar (c : Char) : Bool :=
  c.isAlphanum || c == '_' || 0x80 ≤ c.toNat

/-- The hexadecimal digits. -/
def isHexDigit (c : Char) : Bool :=
  c.isDigit || ('a' ≤ c && c ≤ 'f') || ('A' ≤ c && c ≤ 'F')

/-- The octal digits. -/
def isOctalDigit (c : Char) : Bool :=
  '0' ≤ c && c ≤ '7'

/-- The binary digits. -/
def isBinaryDigit (c : Char) : Bool :=
  c == '0' || c == '1'

/-- The null character, which no token but a template may hold. -/
def isNull (c : Char) : Bool := c.toNat == 0

end DocBlocks
