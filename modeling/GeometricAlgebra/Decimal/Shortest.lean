/-
  GeometricAlgebra.Decimal.Shortest

  The shortest decimal inside an interval around a number.  Decimals with one digit are
  tried first, then with two, and so on: of all decimals with a given number of digits
  only the two neighbours of the number can be inside if any is.  Of two neighbours
  inside, the nearer one is taken, the even one if both are equally near.
-/

import GeometricAlgebra.Decimal.Rounded

namespace GeometricAlgebra.Decimal

/-- An interval around `value / den` with ends `low / den` and `high / den`. -/
structure Interval where
  low : Nat
  value : Nat
  high : Nat
  den : Nat
  -- Whether the ends belong to the interval.
  closed : Bool
deriving DecidableEq, Repr

namespace Interval

/-- Whether `a < b`, or `a ≤ b` for a closed interval. -/
def before (v : Interval) (a b : Nat) : Bool := a < b || (v.closed && a == b)

/-- Whether `num / d` lies in the interval, both taken over the common denominator. -/
def contains (v : Interval) (num d : Nat) : Bool :=
  v.before (v.low * d) (num * v.den) && v.before (num * v.den) (v.high * d)

/-- The neighbour of the value on the grid of step `10 ^ k` that lies in the interval, as a
    multiple of the step. -/
def neighbour? (v : Interval) (k : Int) : Option Nat :=
  let (n, d) := shiftRatio v.value v.den (-k)
  let c := n / d
  let (low, unit) := shiftRatio c 1 k
  let (high, _) := shiftRatio (c + 1) 1 k
  match v.contains low unit, v.contains high unit with
  | true, true =>
    let r := n % d
    if 2 * r < d ∨ (2 * r = d ∧ c % 2 = 0) then some c else some (c + 1)
  | true, false => some c
  | false, true => some (c + 1)
  | false, false => none

/-- The first grid with a neighbour inside, starting with step `10 ^ k` and refining up to
    `fuel` times. -/
def search (v : Interval) : Nat → Int → Option (Nat × Int)
  | 0, _ => none
  | fuel + 1, k =>
    match v.neighbour? k with
    | some c => some (c, k)
    | none => search v fuel (k - 1)

/-- The shortest decimal in the interval with at most `most` digits; zero if there is
    none. -/
def shortest (v : Interval) (negative : Bool) (most : Nat) : Decimal :=
  let (c, k) := (v.search most (leadingPlace v.value v.den)).getD (0, 0)
  stripped { negative := negative, significand := c, exponent := k }

end Interval

end GeometricAlgebra.Decimal
