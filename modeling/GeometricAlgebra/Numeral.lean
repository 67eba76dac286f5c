/-
  GeometricAlgebra.Numeral

  Scalars that are written and read in decimal.  `Numeral.expand` is the number behind
  a scalar; `Numeral.nearest` is the scalar nearest to a decimal; `Numeral.shortest` is
  the shortest decimal whose nearest scalar is the given one.
-/

import GeometricAlgebra.Scalar
import GeometricAlgebra.Decimal

namespace GeometricAlgebra

/-- The number behind a scalar. -/
inductive Expansion where
  | nan
  | infinite (negative : Bool)
  -- The number `±num / den`.
  | finite (negative : Bool) (num den : Nat)
deriving DecidableEq, Repr

/-- Scalars with a decimal form. -/
class Numeral (α : Type) extends Scalar α where
  -- The number behind a scalar.
  expand : α → Expansion
  -- The scalar nearest to a decimal, an infinity if the decimal is too large.
  nearest : Decimal → α
  -- For a finite scalar, the shortest decimal that is nearest to no other scalar.
  shortest : α → Decimal

namespace Numeral

variable {α : Type} [Numeral α]

/-- Whether a scalar is a number and not infinite. -/
def isFinite (x : α) : Bool :=
  match expand x with
  | .finite .. => true
  | _ => false

/-- Whether a scalar is infinite. -/
def isInfinite (x : α) : Bool :=
  match expand x with
  | .infinite _ => true
  | _ => false

end Numeral

end GeometricAlgebra
