/-
  GeometricAlgebra.Decimal.Rounded

  Decimal text of exact ratios, rounded half to even: with a fixed number of places,
  and in scientific form.
-/

import GeometricAlgebra.Decimal

namespace GeometricAlgebra.Decimal

/-- `10 ^ k`. -/
def tenPow (k : Nat) : Nat := Nat.pow 10 k

/-- The whole number nearest to `num / den`; a half goes to the even neighbour. -/
def roundHalfEven (num den : Nat) : Nat :=
  let q := num / den
  let r := num % den
  if 2 * r < den ∨ (2 * r = den ∧ q % 2 = 0) then q else q + 1

/-- `num / den * 10 ^ e`, as a ratio. -/
def shiftRatio (num den : Nat) (e : Int) : Nat × Nat :=
  if 0 ≤ e then (num * tenPow e.toNat, den) else (num, den * tenPow (-e).toNat)

/-- Digits with a point before the last `places` of them; no point for no places. -/
def pointed (ds : List Char) (places : Nat) : List Char :=
  if places = 0 then ds
  else
    let n := ds.length - places
    ds.take n ++ '.' :: ds.drop n

/-- `num / den` with `places` digits after the point. -/
def fixedText (num den places : Nat) : List Char :=
  pointed (paddedDigits (places + 1) (roundHalfEven (num * tenPow places) den)) places

/-- The `e` with `10 ^ e ≤ num / den < 10 ^ (e + 1)`, for a positive ratio. -/
def leadingPlace (num den : Nat) : Int :=
  let e : Int := (digitCount num : Int) - digitCount den
  let (n, d) := shiftRatio num den (-e)
  if d ≤ n then e else e - 1

/-- The significand with `places + 1` digits that is nearest to a positive ratio, and the
    place of its leading digit. -/
def roundSignificand (num den places : Nat) : Nat × Int :=
  let e := leadingPlace num den
  let (n, d) := shiftRatio num den (places - e)
  let q := roundHalfEven n d
  if q = tenPow (places + 1) then (tenPow places, e + 1) else (q, e)

/-- A power of ten behind its mark; only a negative one has a sign. -/
def exponentText (e : Int) : List Char :=
  'e' :: (if e < 0 then ['-'] else []) ++ digits e.natAbs

/-- `num / den` as one digit, `places` digits after the point, and a power of ten. -/
def scientificText (num den places : Nat) : List Char :=
  let (q, e) := if num = 0 then (0, 0) else roundSignificand num den places
  pointed (paddedDigits (places + 1) q) places ++ exponentText e

end GeometricAlgebra.Decimal
