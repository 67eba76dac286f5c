/-
  GeometricAlgebra.Multivector

  Sparse multivectors: a grade set and the coordinates of its groups, one group
  after the other in ascending grade.  Coordinates refer to the stored blades of
  an algebra, in its basis order and orientation.

    * `Multivector.WellFormed A x`: `x` is a multivector of the algebra `A`.
    * `Clifford.group?`, `Clifford.coordinate`: what `x` holds at a grade, and at a
      blade.
    * `Clifford.setCoordinate`, `Clifford.reserve`: writing a coordinate, and
      making room for a grade.
-/

import GeometricAlgebra.Clifford
import GeometricAlgebra.Coordinates

namespace GeometricAlgebra

/-- A multivector as the grades it stores and their coordinates. -/
structure Multivector (α : Type) where
  grades : GradeSet
  -- The coordinates of the stored groups, by ascending grade.
  coords : Coordinates α
deriving BEq, DecidableEq, Repr

namespace Multivector

variable {α : Type}

/-- The zero multivector stores no grade. -/
def zero : Multivector α := ⟨0, #[]⟩

/-- A scalar.  Its grade is stored even if the value is zero. -/
def scalar (s : α) : Multivector α := ⟨1, #[s]⟩

/-- Applies a function to every stored coordinate. -/
def map (f : α → α) (x : Multivector α) : Multivector α := ⟨x.grades, x.coords.map f⟩

/-- Writes one stored coordinate, by its place in the buffer. -/
def overwrite (x : Multivector α) (i : Nat) (value : α) : Multivector α :=
  { x with coords := x.coords.setIfInBounds i value }

variable [Scalar α]

/-- The grades belong to the algebra, and there is one coordinate for each blade
    of these grades. -/
def WellFormed (A : Clifford α) (x : Multivector α) : Prop :=
  (∀ g, x.grades.has g = true → g ≤ A.dimension) ∧ x.coords.size = A.table.size x.grades

/-- The coordinate of the scalar blade, zero if that grade is not stored. -/
def scalarPart (x : Multivector α) : α := if x.grades.has 0 then x.coords.getD 0 0 else 0

/-- The largest absolute value of a coordinate, zero for the zero multivector. -/
def largestCoordinate (x : Multivector α) : α :=
  x.coords.foldl (fun m c => Scalar.larger m (Scalar.abs c)) 0

/-- Whether every coordinate is within `eps` of zero. -/
def isZero (x : Multivector α) (eps : α) : Bool := x.coords.isZero eps

end Multivector

namespace Clifford

variable {α : Type} [Scalar α] (A : Clifford α)

/-! ## Reading -/

/-- The coordinates of group `g`, if stored. -/
def group? (x : Multivector α) (g : Nat) : Option (Coordinates α) :=
  if x.grades.has g then
    let start := A.table.offset x.grades g
    some (x.coords.extract start (start + A.table.groupSize g))
  else none

/-- Reads the given groups one after the other, from a place in the buffer on. -/
def expandFrom (x : Multivector α) : Nat → List Nat → List (Option (Coordinates α))
  | _, [] => []
  | start, g :: gs =>
    if x.grades.has g then
      let stop := start + A.table.groupSize g
      some (x.coords.extract start stop) :: expandFrom x stop gs
    else none :: expandFrom x start gs

/-- Every group of the algebra, with its coordinates if stored, in one pass over the buffer. -/
def expand (x : Multivector α) : List (Option (Coordinates α)) :=
  A.expandFrom x 0 A.table.groups

/-- The stored groups with their grades, ascending. -/
def storedGroups (x : Multivector α) : List (Nat × Coordinates α) :=
  (A.table.groups.zip (A.expand x)).filterMap fun (g, c) => c.map (g, ·)

/-- The stored coordinates with their dense indices, ascending. -/
def stored (x : Multivector α) : List (α × Nat) :=
  (A.storedGroups x).flatMap fun (g, c) => c.toList.zipIdx (A.table.denseStart g)

/-- The place of a canonical blade within its group. -/
def localIndex (b : Blade) : Nat := A.table.index b - A.table.denseStart b.grade

/-- The coordinate at a canonical blade, with respect to the stored orientation;
    zero if its grade is not stored. -/
def coordinate (x : Multivector α) (b : Blade) : α :=
  match A.group? x b.grade with
  | some c => c.getD (A.localIndex b) 0
  | none => 0

/-- The largest absolute value of a coordinate and the first blade that has it;
    zero and the scalar blade for the zero multivector. -/
def largestBlade (x : Multivector α) : α × Blade :=
  (A.stored x).foldl
    (fun best (c, i) => if best.1 < Scalar.abs c then (Scalar.abs c, A.table.blade i) else best)
    (0, 0)

/-- The grades that hold a coordinate not within `eps` of zero. -/
def gradesAbove (x : Multivector α) (eps : α) : GradeSet :=
  (A.storedGroups x).foldl (fun s (g, c) => if c.isZero eps then s else s.insert g) 0

/-! ## Writing -/

/-- Stores grade `g`, with zeros if it was not stored. -/
def reserve (x : Multivector α) (g : Nat) : Multivector α :=
  if x.grades.has g then x
  else
    let start := A.table.offset x.grades g
    { grades := x.grades.insert g
      coords := x.coords.extract 0 start ++ Coordinates.zeros (A.table.groupSize g)
        ++ x.coords.extract start x.coords.size }

/-- Writes the coordinate at a canonical blade, storing its grade if needed. -/
def setCoordinate (x : Multivector α) (b : Blade) (value : α) : Multivector α :=
  let y := A.reserve x b.grade
  { y with coords :=
      y.coords.setIfInBounds (A.table.offset y.grades b.grade + A.localIndex b) value }

/-! ## Making -/

/-- The multivector with the given grades and coordinates.  Grades beyond the
    algebra are dropped before the coordinates are counted. -/
def ofCoords (s : GradeSet) (coords : Coordinates α) : Except Error (Multivector α) :=
  let grades := s &&& A.table.fullSet
  let expected := A.table.size grades
  if coords.size = expected then .ok ⟨grades, coords⟩
  else .error (.coordinateCount expected coords.size)

/-- The basis vector `e_i`. -/
def basisVector (i : Nat) : Multivector α := A.setCoordinate .zero (.ofVector i) 1

/-- A vector from its components; missing components are zero, further ones are
    dropped. -/
def vector (components : Coordinates α) : Multivector α :=
  ⟨GradeSet.insert 0 1, (Coordinates.zeros A.dimension).store components⟩

end Clifford

end GeometricAlgebra
