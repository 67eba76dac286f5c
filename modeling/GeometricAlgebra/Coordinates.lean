/-
  GeometricAlgebra.Coordinates

  Coordinate lists, entry by entry.  Two lists are combined as far as both reach.
  `Coordinates.store` writes a computed list over an existing one.
-/

import GeometricAlgebra.Scalar

namespace GeometricAlgebra

/-- The coordinates of a group, or of several groups one after the other. -/
abbrev Coordinates (α : Type) := Array α

namespace Coordinates

variable {α : Type}

/-- `new` written over the start of `old`: where `new` ends, `old` stays; what
    does not fit is dropped. -/
def store (old new : Coordinates α) : Coordinates α :=
  new.extract 0 old.size ++ old.extract new.size old.size

variable [Scalar α]

/-- `n` zeros. -/
def zeros (n : Nat) : Coordinates α := Array.replicate n 0

/-- Every entry negated. -/
def negated (xs : Coordinates α) : Coordinates α := xs.map fun x => -x

/-- Every entry times `s`. -/
def scaled (xs : Coordinates α) (s : α) : Coordinates α := xs.map (· * s)

/-- Every entry divided by `s`. -/
def divided (xs : Coordinates α) (s : α) : Coordinates α := xs.map (· / s)

/-- Entrywise sum. -/
def sum (xs ys : Coordinates α) : Coordinates α := Array.zipWith (· + ·) xs ys

/-- Entrywise difference. -/
def difference (xs ys : Coordinates α) : Coordinates α := Array.zipWith (· - ·) xs ys

/-- Entrywise product. -/
def hadamard (xs ys : Coordinates α) : Coordinates α := Array.zipWith (· * ·) xs ys

/-- Entrywise quotient. -/
def quotient (xs ys : Coordinates α) : Coordinates α := Array.zipWith (· / ·) xs ys

/-- Whether a coordinate is within `eps` of zero.  What does not compare is not. -/
def isNegligible (eps x : α) : Bool := Scalar.abs x ≤ eps

/-- Whether every entry is within `eps` of zero. -/
def isZero (xs : Coordinates α) (eps : α) : Bool := xs.all (isNegligible eps)

/-- Whether every difference of entries is within `eps` of zero. -/
def equals (xs ys : Coordinates α) (eps : α) : Bool := (difference xs ys).isZero eps

end Coordinates

end GeometricAlgebra
