/-
  GeometricAlgebra.Multivector.Product

  The bilinear products of multivectors.  The partial products of every pair of
  stored groups are added up in a dense buffer, which is then compressed, so the
  result stores exactly the grades that hold a non-zero coordinate.
-/

import GeometricAlgebra.ProductTable
import GeometricAlgebra.Multivector.Dense

namespace GeometricAlgebra.Clifford

variable {α : Type} [Scalar α] (A : Clifford α)

/-- Adds a partial product of two groups to a dense buffer. -/
def addPartialProduct (left right : Coordinates α) (dense : Coordinates α)
    (p : PartialProduct α) : Coordinates α :=
  let start := A.table.denseStart p.out
  p.terms.foldl
    (fun d t => d.modify (start + t.out)
      (· + t.coeff * left.getD t.left 0 * right.getD t.right 0)) dense

/-- The product of two multivectors as a dense buffer. -/
def denseProduct (kind : ProductKind) (x y : Multivector α) : Coordinates α :=
  let right := A.storedGroups y
  (A.storedGroups x).foldl
    (fun dense (i, c) => right.foldl
      (fun dense (j, d) =>
        (A.partialProducts kind i j).foldl (A.addPartialProduct c d) dense) dense)
    A.denseZeros

/-- The product of two multivectors. -/
def product (kind : ProductKind) (x y : Multivector α) : Multivector α :=
  A.compress (A.denseProduct kind x y) 0 A.table.fullSet

/-! ## The usual names -/

/-- Geometric product. -/
def gp (x y : Multivector α) : Multivector α := A.product .geometric x y

/-- Outer product. -/
def op (x y : Multivector α) : Multivector α := A.product .outer x y

/-- Scalar product, as a scalar. -/
def sp (x y : Multivector α) : α := (A.product .scalar x y).scalarPart

/-- Left contraction. -/
def lc (x y : Multivector α) : Multivector α := A.product .leftContraction x y

/-- Right contraction. -/
def rc (x y : Multivector α) : Multivector α := A.product .rightContraction x y

/-- Hestenes inner product. -/
def hip (x y : Multivector α) : Multivector α := A.product .hestenes x y

/-- Modified Hestenes inner product. -/
def mhip (x y : Multivector α) : Multivector α := A.product .modifiedHestenes x y

end GeometricAlgebra.Clifford
