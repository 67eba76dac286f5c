/-
  GeometricAlgebra.Scalar

  The number systems that coordinates and metric entries are taken from.

  `Scalar` bundles the operations that the engine performs on coordinates, and
  no laws: the same code runs on binary floating point numbers and on an exact
  ordered field.  Laws are hypotheses of the statements that need them.
  `Elementary` adds the functions that the exponential family calls.
-/

namespace GeometricAlgebra

/-! ## Arithmetic -/

/-- The arithmetic of coordinates.  `==` is the comparison the arithmetic itself
    offers; on floating point numbers it differs from equality at zero and at
    not-a-number. -/
class Scalar (α : Type) extends Zero α, One α, Add α, Sub α, Neg α, Mul α, Div α,
    NatCast α, LT α, LE α, BEq α where
  abs : α → α
  decidableLT : DecidableLT α
  decidableLE : DecidableLE α

attribute [reducible, instance] Scalar.decidableLT Scalar.decidableLE

namespace Scalar

variable {α : Type} [Scalar α]

/-- `2 ^ k`, by doubling. -/
def twoPow : Nat → α
  | 0 => 1
  | k + 1 => twoPow k + twoPow k

/-- The zero that is neutral for addition on the left: `-0 + x` is `x` for every
    `x`, also where the arithmetic tells the two zeros apart. -/
def negZero : α := -0

/-- Sum from left to right, starting at the neutral zero. -/
def sum (xs : List α) : α := xs.foldl (· + ·) negZero

/-- Product from left to right, starting at one. -/
def product (xs : List α) : α := xs.foldl (· * ·) 1

/-- The larger of a bound and a new value; a value that does not compare leaves
    the bound alone. -/
def larger (m x : α) : α := if m < x then x else m

end Scalar

/-! ## Elementary functions -/

/-- The functions behind norms, rotors and their logarithms. -/
class Elementary (α : Type) extends Scalar α where
  sqrt : α → α
  sin : α → α
  cos : α → α
  sinh : α → α
  cosh : α → α
  -- `atan2 y x` is the angle of the point `(x, y)`.
  atan2 : α → α → α
  -- Half the circumference of the unit circle.
  pi : α
  -- Logarithm to base two.
  log2 : α → α
  -- The integer part, toward zero.
  trunc : α → α
  -- The greatest integer that is not larger.
  floor : α → α
  -- The integer part of a non-negative scalar.
  toNat : α → Nat

end GeometricAlgebra
