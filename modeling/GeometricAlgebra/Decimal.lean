/-
  GeometricAlgebra.Decimal

  Decimal numbers, exactly: a sign, a whole significand and a power of ten.  The
  same number has several forms; `Decimal.stripped` has no factor of ten left.
-/

namespace GeometricAlgebra

/-- The number `±significand * 10 ^ exponent`. -/
structure Decimal where
  negative : Bool
  significand : Nat
  exponent : Int
deriving DecidableEq, Repr

namespace Decimal

/-! ## Digits -/

/-- The value of a digit. -/
def digitValue (c : Char) : Nat := c.toNat - '0'.toNat

/-- The number that a digit list denotes. -/
def digitsValue (cs : List Char) : Nat := cs.foldl (fun v c => v * 10 + digitValue c) 0

/-- The digits of a number, without leading zeros; zero has one digit. -/
def digits (n : Nat) : List Char := Nat.toDigits 10 n

/-- The digits of a number, with leading zeros up to `width` digits. -/
def paddedDigits (width n : Nat) : List Char :=
  let ds := digits n
  List.replicate (width - ds.length) '0' ++ ds

/-- The number of digits. -/
def digitCount (n : Nat) : Nat := (digits n).length

/-! ## Forms of one number -/

/-- The number of integer digits, fraction digits and an exponent. -/
def ofDigits (negative : Bool) (integer fraction : List Char) (exponent : Int) : Decimal :=
  { negative := negative
    significand := digitsValue (integer ++ fraction)
    exponent := exponent - fraction.length }

/-- Moves up to `fuel` trailing zeros of a significand into the exponent. -/
def strip : Nat → Nat → Int → Nat × Int
  | 0, n, e => (n, e)
  | fuel + 1, n, e =>
    if n ≠ 0 ∧ n % 10 = 0 then strip fuel (n / 10) (e + 1) else (n, e)

/-- The form whose significand has no trailing zero. -/
def stripped (d : Decimal) : Decimal :=
  let (n, e) := strip (digitCount d.significand) d.significand d.exponent
  { d with significand := n, exponent := e }

end Decimal

end GeometricAlgebra
