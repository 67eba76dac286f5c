/-
  GeometricAlgebra.Outermorphism

  Linear maps of vectors, extended to all blades by `f (a ^ b) = f a ^ f b`.  An
  outermorphism is kept as one square matrix per group, over the stored blades;
  applying it is one matrix-vector product per stored group.
-/

import GeometricAlgebra.Multivector.Gradewise
import GeometricAlgebra.Multivector.Product

namespace GeometricAlgebra

/-- The matrices of an outermorphism, by group.  A matrix is stored row by row; entry
    `(row, col)` is the coefficient of the stored blade `row` in the image of the
    stored blade `col`. -/
structure Outermorphism (α : Type) where
  matrices : Array (Coordinates α)
deriving BEq, DecidableEq, Repr

namespace Outermorphism

/-- The matrix that acts on group `g`. -/
def matrix {α : Type} (f : Outermorphism α) (g : Nat) : Coordinates α := f.matrices.getD g #[]

end Outermorphism

namespace Clifford

variable {α : Type} [Scalar α] (A : Clifford α)

/-- The image of a wedge of basis vectors: the wedge of their images. -/
def wedgeImages (images : Array (Multivector α)) (vectors : List Nat) : Multivector α :=
  vectors.foldl (fun x v => A.op x (images.getD v .zero)) (.scalar 1)

/-- The matrix of group `g`, by the images of the basis vectors. -/
def outermorphismMatrix (images : Array (Multivector α)) (g : Nat) : Coordinates α :=
  let size := A.table.groupSize g
  let columns := (List.range size).map fun col =>
    (A.group? (A.wedgeImages images (A.table.vectors (A.table.denseStart g + col))) g).getD
      (Coordinates.zeros size)
  ((List.range size).flatMap fun row => columns.map fun c => c.getD row 0).toArray

/-- The outermorphism with the given images of the basis vectors.  Only the vector parts
    of the images count. -/
def outermorphismOfImages (images : Array (Multivector α)) : Except Error (Outermorphism α) :=
  if images.size = A.dimension then
    let vectors := images.map fun v => A.extract v (GradeSet.insert 0 1)
    .ok ⟨(A.table.groups.map (A.outermorphismMatrix vectors)).toArray⟩
  else .error (.coordinateCount A.dimension images.size)

/-- The outermorphism of a square matrix, given row by row; column `i` holds the
    components of the image of vector `i`. -/
def outermorphismOfMatrix (matrix : Coordinates α) : Except Error (Outermorphism α) :=
  let n := A.dimension
  if matrix.size = n * n then
    A.outermorphismOfImages
      ((List.range n).map fun col =>
        A.vector ((List.range n).map fun row => matrix.getD (row * n + col) 0).toArray).toArray
  else .error (.coordinateCount (n * n) matrix.size)

/-- A row of a matrix times a column. -/
def rowTimes (matrix column : Coordinates α) (row : Nat) : α :=
  let n := column.size
  Scalar.sum (List.zipWith (· * ·) (matrix.extract (row * n) (row * n + n)).toList column.toList)

/-- The image of `x`.  It stores the grades that `x` stores. -/
def applyOutermorphism (f : Outermorphism α) (x : Multivector α) : Multivector α :=
  A.mapGroups
    (fun g c => ((List.range c.size).map (rowTimes (f.matrix g) c)).toArray) x

end Clifford

end GeometricAlgebra
