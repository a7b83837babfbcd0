import DocBlocks.Number.Binary64

/-
  The shortest decimal of a number.

  For one digit, two digits and so on, the two decimals around the number are tried; the first
  length with one that reads back as the number wins, and of two such decimals the nearer one.
-/

namespace DocBlocks

/-- The decimal `digits * 10 ^ exponent`. -/
structure Decimal where
  digits : Nat
  exponent : Int
  deriving DecidableEq, Repr

/-- A decimal whose digits may have run over to one more digit, written without the zero. -/
def Decimal.trimmed (d : Decimal) : Decimal :=
  if d.digits % 10 = 0 then ⟨d.digits / 10, d.exponent + 1⟩ else d

namespace Binary64

/-- A power of ten that brings every positive number above one. -/
def liftExponent : Nat := 400

/-- The whole part of a positive number lifted by a power of ten. -/
def lifted (m e : Nat) : Nat := m * Nat.pow 2 e * Nat.pow 10 liftExponent / Nat.pow 2 unitExponent

/-- How many digits stand before the decimal point, negative if zeros follow it. -/
def pointPosition (m e : Nat) : Int := (decimalLength (lifted m e) : Int) - liftExponent

/-- A positive number counted in steps of a power of ten. -/
structure Steps where
  /-- How many whole steps there are. -/
  count : Nat
  /-- The rest, in parts of a step. -/
  rest : Nat
  /-- The parts of a step. -/
  parts : Nat

/-- Counts a positive number in steps of a power of ten. -/
def stepsOf (m e : Nat) (step : Int) : Steps :=
  let num := m * Nat.pow 2 e * Nat.pow 10 (-step).toNat
  let den := Nat.pow 2 unitExponent * Nat.pow 10 step.toNat
  ⟨num / den, num % den, den⟩

/-- Whether a decimal reads back as a positive number. -/
def readsBack (m e : Nat) (d : Decimal) : Bool :=
  ofDecimal false d.digits d.exponent == finite false m e

/-- One of the two decimals around a number, told which of them read back. -/
def Steps.choose? (s : Steps) (tieUp : Bool) (step : Int) (lower upper : Bool) : Option Decimal :=
  match lower, upper with
  | true, true =>
    let up := s.parts < 2 * s.rest || (2 * s.rest == s.parts && (tieUp || s.count % 2 == 1))
    some ⟨if up then s.count + 1 else s.count, step⟩
  | true, false => some ⟨s.count, step⟩
  | false, true => some ⟨s.count + 1, step⟩
  | false, false => none

/-- The decimal with that many digits that reads back as the number, if there is one. -/
def decimalOfLength? (tieUp : Bool) (m e n : Nat) : Option Decimal :=
  let step := pointPosition m e - n
  let s := stepsOf m e step
  s.choose? tieUp step (readsBack m e ⟨s.count, step⟩) (readsBack m e ⟨s.count + 1, step⟩)

/-- Enough digits to tell any two numbers apart. -/
def maxDigits : Nat := 17

/-- The shortest decimal that reads back as a positive number. The flag says whether a tie between
two such decimals goes to the larger or to the even one. -/
def shortest (tieUp : Bool) (m e : Nat) : Decimal :=
  let found? := (List.range maxDigits).findSome? fun n => decimalOfLength? tieUp m e (n + 1)
  (found?.map Decimal.trimmed).getD ⟨m, 0⟩

end Binary64

end DocBlocks
