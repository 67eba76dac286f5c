/-
  GeometricAlgebra.Multivector.Dense

  Dense coordinate buffers: one coordinate for every blade of the algebra, in
  basis order.

    * `Clifford.toDense` writes zeros for the grades that are not stored.
    * `Clifford.compress` keeps the groups of a mask that hold a coordinate not
      within a bound of zero, and keeps them unchanged.
-/

import GeometricAlgebra.Multivector

namespace GeometricAlgebra.Clifford

variable {α : Type} [Scalar α] (A : Clifford α)

/-- The coordinates of all blades, zero where no grade is stored. -/
def toDense (x : Multivector α) : Coordinates α :=
  A.table.groups.foldl
    (fun d g => d ++ (A.group? x g).getD (Coordinates.zeros (A.table.groupSize g))) #[]

/-- Group `g` of a dense buffer. -/
def denseGroup (dense : Coordinates α) (g : Nat) : Coordinates α :=
  let start := A.table.denseStart g
  dense.extract start (start + A.table.groupSize g)

/-- The multivector of a dense buffer: the groups in `mask` with a coordinate that
    is not within `eps` of zero. -/
def compress (dense : Coordinates α) (eps : α) (mask : GradeSet) : Multivector α :=
  A.table.groups.foldl
    (fun x g =>
      let c := A.denseGroup dense g
      if mask.has g && !c.isZero eps then ⟨x.grades.insert g, x.coords ++ c⟩ else x)
    .zero

/-- The multivector of a dense buffer without its zero groups. -/
def ofDense (dense : Coordinates α) : Except Error (Multivector α) :=
  let expected := A.table.denseSize
  if dense.size = expected then .ok (A.compress dense 0 A.table.fullSet)
  else .error (.coordinateCount expected dense.size)

/-- A dense buffer of zeros. -/
def denseZeros : Coordinates α := Coordinates.zeros A.table.denseSize

/-- `x` times the scalar `s`, without the groups that become zero. -/
def scale (x : Multivector α) (s : α) : Multivector α :=
  A.compress (A.toDense (x.map (· * s))) 0 x.grades

end GeometricAlgebra.Clifford
