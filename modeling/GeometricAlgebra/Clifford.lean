/-
  GeometricAlgebra.Clifford

  A Clifford algebra with a diagonal metric: its description, the numbering of its
  basis blades and the squares of its basis vectors.  `Clifford.ofConfig` accepts
  exactly the descriptions that `Config.basisOrder` accepts.
-/

import GeometricAlgebra.Config.Preset
import GeometricAlgebra.GradeTable

namespace GeometricAlgebra

/-- A Clifford algebra with a diagonal metric and a declared basis order. -/
structure Clifford (α : Type) where
  -- The description it was made from.
  config : Config α
  -- The numbering of the basis blades.
  table : GradeTable
  -- The squares of the basis vectors.
  metric : Array α
deriving Repr

namespace Clifford

variable {α : Type} [Scalar α]

/-- The algebra of a description. -/
def ofConfig (c : Config α) : Except Error (Clifford α) := do
  let order ← c.basisOrder
  return { config := c, table := .ofOrder c.dimension order, metric := c.metricDiagonal.toArray }

/-- The Euclidean algebra of dimension `n`, with vectors `e1` to `en`. -/
def euclidean (n : Nat) : Except Error (Clifford α) :=
  if n = 0 then .error (.invalidAlgebra .noDimension) else ofConfig (.euclidean n)

variable (A : Clifford α)

/-- The number of basis vectors. -/
def dimension : Nat := A.table.dimension

/-- The name of basis vector `i`. -/
def vectorName (i : Nat) : String := A.config.vectors.getD i ""

/-- The name of the stored blade at a dense index: its vectors in stored order,
    `1` for the scalar. -/
def bladeName (i : Nat) : String :=
  match A.table.vectors i with
  | [] => "1"
  | vs => "^".intercalate (vs.map A.vectorName)

/-- The product of two canonical blades under the metric of the algebra. -/
def bladeProduct (a b : Blade) : α × Blade := Blade.geometricProduct A.metric a b

/-- The pseudoscalar as a canonical blade. -/
def pseudoscalar : Blade := .full A.dimension

end Clifford

end GeometricAlgebra
