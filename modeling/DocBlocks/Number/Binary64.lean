/-
  Binary floating-point numbers of double precision.

  A finite number is a sign and a multiple of `2 ^ scale` in units of `2 ^ -1074`, the smallest
  number there is. Rounding goes to the nearest number, and a tie to the one whose significand is
  even. All arithmetic is exact on natural numbers and rounds once at the end.
-/

namespace DocBlocks

/-- A number of double precision. A finite one is `significand * 2 ^ scale * 2 ^ -1074`, with a
significand of at most 53 bits, and of exactly 53 bits unless the scale is zero. -/
inductive Binary64 where
  | finite (negative : Bool) (significand scale : Nat)
  | infinite (negative : Bool)
  | undefined
  deriving DecidableEq, Repr

namespace Binary64

/-- Zero, with its sign. -/
def zero (negative : Bool) : Binary64 := finite negative 0 0

instance : Inhabited Binary64 := ⟨zero false⟩

/-- The bits of a significand. -/
def precision : Nat := 53

/-- The smallest number is `2 ^ -1074`. -/
def unitExponent : Nat := 1074

/-- The largest scale of a finite number. -/
def maxScale : Nat := 2045

/-- The quotient rounded to the nearest integer, a tie to the even one. -/
def roundDiv (n d : Nat) : Nat :=
  let q := n / d
  let r := n % d
  if d < 2 * r || (2 * r == d && q % 2 == 1) then q + 1 else q

/-- The scale that leaves a significand of the whole part of a number of units. -/
def scaleOf (whole : Nat) : Nat :=
  if whole < Nat.pow 2 precision then 0 else whole.log2 + 1 - precision

/-- The number with a significand and a scale, unless it is too large. -/
def bounded (negative : Bool) (m scale : Nat) : Binary64 :=
  if maxScale < scale then infinite negative else finite negative m scale

/-- The number with a significand that may have run over to one more bit. -/
def carried (negative : Bool) (m scale : Nat) : Binary64 :=
  if m < Nat.pow 2 precision then bounded negative m scale
  else bounded negative (Nat.pow 2 (precision - 1)) (scale + 1)

/-- The number nearest to a fraction. -/
def round (negative : Bool) (num den : Nat) : Binary64 :=
  let units := num * Nat.pow 2 unitExponent
  let scale := scaleOf (units / den)
  carried negative (roundDiv units (den * Nat.pow 2 scale)) scale

/-- The number of decimal digits. -/
def decimalLength (n : Nat) : Nat := (Nat.toDigits 10 n).length

/-- The number nearest to `digits * 10 ^ exponent`. Exponents far beyond the finite numbers are
settled by size. -/
def ofDecimal (negative : Bool) (digits : Nat) (exponent : Int) : Binary64 :=
  if digits = 0 then zero negative
  else
    let size := (decimalLength digits : Int) + exponent
    if 310 < size then infinite negative
    else if size < -330 then zero negative
    else if 0 ≤ exponent then round negative (digits * Nat.pow 10 exponent.toNat) 1
    else round negative digits (Nat.pow 10 (-exponent).toNat)

/-- The number nearest to an integer. -/
def ofInt (i : Int) : Binary64 := ofDecimal (decide (i < 0)) i.natAbs 0

/-- The sign. -/
def negative : Binary64 → Bool
  | finite s _ _ => s
  | infinite s => s
  | undefined => false

/-- The number with its sign turned. -/
def neg : Binary64 → Binary64
  | finite s m e => finite (!s) m e
  | infinite s => infinite (!s)
  | undefined => undefined

/-- Whether a number is zero. -/
def isZero : Binary64 → Bool
  | finite _ m _ => m == 0
  | _ => false

/-- A finite number times a power of ten that is itself rounded first. -/
def timesPowerOfTen (x : Binary64) (k : Nat) : Binary64 :=
  match x, ofDecimal false 1 k with
  | finite s m e, finite _ m' e' =>
    round s (m * Nat.pow 2 e * (m' * Nat.pow 2 e'))
      (Nat.pow 2 unitExponent * Nat.pow 2 unitExponent)
  | x, _ => x

/-- A finite number divided by a power of ten that is itself rounded first. -/
def dividedByPowerOfTen (x : Binary64) (k : Nat) : Binary64 :=
  match x, ofDecimal false 1 k with
  | finite s m e, finite _ m' e' => round s (m * Nat.pow 2 e) (m' * Nat.pow 2 e')
  | x, _ => x

end Binary64

end DocBlocks
