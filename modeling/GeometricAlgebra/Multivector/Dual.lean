/-
  GeometricAlgebra.Multivector.Dual

  Duality with respect to the pseudoscalar `I`: the dual of `x` is its left
  contraction onto the inverse of `I`, the undual its left contraction onto `I`.
  Both move every blade to its complement with a coefficient.
-/

import GeometricAlgebra.Multivector.Dense

namespace GeometricAlgebra.Clifford

variable {α : Type} [Scalar α] (A : Clifford α)

/-- The dense index and the coefficient of the product of the stored blade at a dense
    index with the pseudoscalar.  `scale` is a factor of the pseudoscalar. -/
def complement (scale : α → α) (i : Nat) : Nat × α :=
  let (c, b) := A.bladeProduct (A.table.blade i) A.pseudoscalar
  let out := A.table.index b
  (out, scale c * (A.table.sign i * A.table.sign out).toScalar)

/-- The factor by which the inverse of the pseudoscalar differs from it.  Under a
    metric with a zero there is no inverse, and the factor is not finite. -/
def inverseScale : α :=
  (Blade.reverseSign A.dimension).toScalar / Scalar.product A.metric.toList

/-- Where the dual takes each stored blade. -/
def dualImage (i : Nat) : Nat × α := A.complement (· * A.inverseScale) i

/-- Where the undual takes each stored blade. -/
def undualImage (i : Nat) : Nat × α := A.complement id i

/-- Moves every coordinate to the image of its blade. -/
def permute (image : Nat → Nat × α) (x : Multivector α) : Multivector α :=
  A.compress
    ((A.stored x).foldl (fun d (c, i) => d.setIfInBounds (image i).1 ((image i).2 * c))
      A.denseZeros)
    0 A.table.fullSet

/-- The dual. -/
def dual (x : Multivector α) : Multivector α := A.permute A.dualImage x

/-- The undual. -/
def undual (x : Multivector α) : Multivector α := A.permute A.undualImage x

end GeometricAlgebra.Clifford
