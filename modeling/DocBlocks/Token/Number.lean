import DocBlocks.Token.Character

/-
  Number tokens.

  An integer is decimal, octal, hexadecimal or binary; a float has a point or an exponent. Digits
  may be grouped by single underscores. Of an integer and a float at one place the longer one wins.
-/

namespace DocBlocks

/-- Takes digits, and underscores that stand right before a digit. -/
def takeDigits (digit : Char → Bool) : List Char → List Char × List Char
  | [] => ([], [])
  | c :: cs =>
    if digit c || (c == '_' && cs.head?.any digit) then
      let (ds, rest) := takeDigits digit cs
      (c :: ds, rest)
    else ([], c :: cs)

/-- The integer at the front of a text that begins with a digit. -/
def integerLength : List Char → Nat
  | '0' :: p :: d :: cs =>
    if (p == 'x' || p == 'X') && isHexDigit d then 2 + (takeDigits isHexDigit (d :: cs)).1.length
    else if (p == 'b' || p == 'B') && isBinaryDigit d then
      2 + (takeDigits isBinaryDigit (d :: cs)).1.length
    else if p == 'o' || p == 'O' then 2 + (takeDigits isOctalDigit (d :: cs)).1.length
    else 1 + (takeDigits isOctalDigit (p :: d :: cs)).1.length
  | '0' :: p :: cs =>
    if p == 'o' || p == 'O' then 2 else 1 + (takeDigits isOctalDigit (p :: cs)).1.length
  | cs => (takeDigits Char.isDigit cs).1.length

/-- The exponent at the front of a text, if there is one. -/
def exponentLength : List Char → Nat
  | e :: cs =>
    if e == 'e' || e == 'E' then
      match cs with
      | s :: d :: ds =>
        if s.isDigit then 1 + (takeDigits Char.isDigit (s :: d :: ds)).1.length
        else if (s == '+' || s == '-') && d.isDigit then
          2 + (takeDigits Char.isDigit (d :: ds)).1.length
        else 0
      | [d] => if d.isDigit then 2 else 0
      | [] => 0
    else 0
  | [] => 0

/-- The float at the front of a text, or nothing if neither point nor exponent is there. -/
def floatLength (cs : List Char) : Nat :=
  let (whole, rest) := takeDigits Char.isDigit cs
  match rest with
  | '.' :: rest =>
    let (part, rest) := takeDigits Char.isDigit rest
    whole.length + 1 + part.length + exponentLength rest
  | rest =>
    let e := exponentLength rest
    if e == 0 then 0 else whole.length + e

end DocBlocks
