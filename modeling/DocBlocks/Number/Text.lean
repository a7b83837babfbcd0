import DocBlocks.Number.Shortest

/-
  Numbers as text.

  A style says where positional writing ends and how the rest is spelled. Reading takes any decimal
  with a point and an exponent, and the words for what is not finite.
-/

namespace DocBlocks

/-! ### Writing -/

/-- How numbers are spelled. -/
structure NumberStyle where
  /-- Numbers from ten to this power on are written positionally. -/
  positionalFrom : Int
  /-- Numbers below ten to this power are written positionally. -/
  positionalBelow : Int
  /-- Whether a positive exponent carries its sign. -/
  signedExponent : Bool
  /-- Whether a tie between two shortest decimals goes to the larger one. -/
  tieUp : Bool
  infinite : String
  negativeInfinite : String
  undefined : String

/-- Digits with their point and exponent. -/
def NumberStyle.decimal (style : NumberStyle) (d : Decimal) : String :=
  let digits := Nat.toDigits 10 d.digits
  let point := (digits.length : Int) + d.exponent
  let text := if style.positionalFrom < point && point ≤ style.positionalBelow then
      if point ≤ 0 then ['0', '.'] ++ List.replicate (-point).toNat '0' ++ digits
      else
        let front := digits.take point.toNat
        let zeros := List.replicate (point.toNat - digits.length) '0'
        let back := digits.drop point.toNat
        front ++ zeros ++ ['.'] ++ (if back.isEmpty then ['0'] else back)
    else
      let back := digits.drop 1
      let exponent := point - 1
      let sign := if exponent < 0 then ['-'] else if style.signedExponent then ['+'] else []
      digits.take 1 ++ (if back.isEmpty then [] else '.' :: back) ++ ['e'] ++ sign ++
        Nat.toDigits 10 exponent.natAbs
  String.ofList text

/-- A number in a style. -/
def NumberStyle.write (style : NumberStyle) : Binary64 → String
  | .finite s m e =>
    let text := if m = 0 then "0.0" else style.decimal (Binary64.shortest style.tieUp m e)
    if s then "-" ++ text else text
  | .infinite s => if s then style.negativeInfinite else style.infinite
  | .undefined => style.undefined

/-- The style of a printed value: positional from 0.0001 to below ten to the sixteenth. -/
def displayStyle : NumberStyle := ⟨-4, 16, false, true, "inf", "-inf", "NaN"⟩

/-! ### Reading -/

/-- The value of a decimal digit. -/
def digitValue (c : Char) : Nat := c.toNat - '0'.toNat

/-- The value of a run of decimal digits. -/
def decimalValue (digits : List Char) : Nat :=
  digits.foldl (fun n c => 10 * n + digitValue c) 0

/-- Splits a sign off a text. A negative one is told by the flag. -/
def takeSign : List Char → Bool × List Char
  | '-' :: cs => (true, cs)
  | '+' :: cs => (false, cs)
  | cs => (false, cs)

/-- Reads an exponent with its mark, which must be all of the text. No text is the exponent zero. -/
def readExponent? : List Char → Option Int
  | [] => some 0
  | c :: cs =>
    if c == 'e' || c == 'E' then
      let (negative, digits) := takeSign cs
      if digits.isEmpty || !digits.all Char.isDigit then none
      else
        let n : Int := decimalValue digits
        some (if negative then -n else n)
    else none

/-- Reads an unsigned decimal: digits, a point with digits on at least one side of it, and an
exponent. -/
def readDecimal? (negative : Bool) (cs : List Char) : Option Binary64 :=
  let whole := cs.takeWhile Char.isDigit
  let rest := cs.drop whole.length
  let fraction := match rest with
    | '.' :: cs => cs.takeWhile Char.isDigit
    | _ => []
  let rest := match rest with
    | '.' :: cs => cs.drop fraction.length
    | cs => cs
  if whole.isEmpty && fraction.isEmpty then none
  else (readExponent? rest).map fun e =>
    Binary64.ofDecimal negative (decimalValue (whole ++ fraction)) (e - fraction.length)

/-- Reads a number, or one of the words `inf`, `infinity` and `nan` in any case. -/
def readNumber? (cs : List Char) : Option Binary64 :=
  let (negative, rest) := takeSign cs
  let word := String.ofList (rest.map Char.toLower)
  if word == "inf" || word == "infinity" then some (.infinite negative)
  else if word == "nan" then some .undefined
  else readDecimal? negative rest

/-! ### Integers -/

/-- The value of a digit in some base of at most sixteen. -/
def anyDigitValue? (base : Nat) (c : Char) : Option Nat :=
  let n := if c.isDigit then some (digitValue c)
    else if 'a' ≤ c && c ≤ 'f' then some (c.toNat - 'a'.toNat + 10)
    else if 'A' ≤ c && c ≤ 'F' then some (c.toNat - 'A'.toNat + 10)
    else none
  n.filter (· < base)

/-- The value of a run of digits in some base, of which there must be one. -/
def readDigits? (base : Nat) (cs : List Char) : Option Nat :=
  if cs.isEmpty then none
  else cs.foldlM (fun n c => (anyDigitValue? base c).map fun d => base * n + d) 0

/-- Reads an integer in some base, with a sign or without. -/
def readInteger? (base : Nat) (cs : List Char) : Option Int :=
  let (negative, digits) := takeSign cs
  (readDigits? base digits).map fun n => if negative then -(n : Int) else n

/-- Whether an integer fits a signed word of 64 bits. -/
def fitsWord (i : Int) : Bool := -(Int.pow 2 63) ≤ i && i < Int.pow 2 63

end DocBlocks
