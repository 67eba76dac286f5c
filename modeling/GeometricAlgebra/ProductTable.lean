/-
  GeometricAlgebra.ProductTable

  The structure constants of a product.  For two groups `i` and `j` the table lists,
  by ascending grade of the result, the terms
  `out[t.out] += t.coeff * a[t.left] * b[t.right]`
  of the pairs of stored blades whose product is not zero and whose result the
  product keeps.  Indices are local to their groups.
-/

import GeometricAlgebra.Clifford
import GeometricAlgebra.ProductKind

namespace GeometricAlgebra

/-- One term of a product of two groups. -/
structure ProductTerm (α : Type) where
  -- The place of the left blade in its group.
  left : Nat
  -- The place of the right blade in its group.
  right : Nat
  -- The place of the result in its group.
  out : Nat
  -- The factor of the term; never zero.
  coeff : α
deriving DecidableEq, Repr

/-- The terms of a product of two groups that fall into one group. -/
structure PartialProduct (α : Type) where
  left : Nat
  right : Nat
  out : Nat
  terms : List (ProductTerm α)
deriving DecidableEq, Repr

namespace Clifford

variable {α : Type} [Scalar α] (A : Clifford α) (kind : ProductKind)

/-- The term of blade `a` of group `i` and blade `b` of group `j`, with the grade of
    the result, if the pair contributes.  Stored orientations enter as signs. -/
def productTerm? (i j a b : Nat) : Option (Nat × ProductTerm α) :=
  let p := A.table.denseStart i + a
  let q := A.table.denseStart j + b
  let (c, blade) := A.bladeProduct (A.table.blade p) (A.table.blade q)
  let g := blade.grade
  if c == 0 || !kind.accepts i j g then none
  else
    let r := A.table.index blade
    some (g,
      { left := a
        right := b
        out := r - A.table.denseStart g
        coeff := c * (A.table.sign p).toScalar * (A.table.sign q).toScalar
          * (A.table.sign r).toScalar })

/-- The terms of groups `i` and `j`, by ascending left and then right place, with the
    grades of their results. -/
def productTerms (i j : Nat) : List (Nat × ProductTerm α) :=
  (List.range (A.table.groupSize i)).flatMap fun a =>
    (List.range (A.table.groupSize j)).filterMap fun b => A.productTerm? kind i j a b

/-- The partial products of groups `i` and `j`, by ascending group of the result;
    none is empty. -/
def partialProducts (i j : Nat) : List (PartialProduct α) :=
  let terms := A.productTerms kind i j
  A.table.groups.filterMap fun g =>
    match (terms.filter fun t => t.1 == g).map (·.2) with
    | [] => none
    | ts => some ⟨i, j, g, ts⟩

/-- The partial products of all pairs of groups, row by row. -/
def allPartialProducts : List (PartialProduct α) :=
  A.table.groups.flatMap fun i => A.table.groups.flatMap fun j => A.partialProducts kind i j

/-- The number of partial products. -/
def numPartialProducts : Nat := (A.allPartialProducts kind).length

/-- The number of terms. -/
def numTerms : Nat := ((A.allPartialProducts kind).map fun p => p.terms.length).foldr (· + ·) 0

end Clifford

end GeometricAlgebra
