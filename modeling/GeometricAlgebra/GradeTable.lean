/-
  GeometricAlgebra.GradeTable

  Where the coordinates of an algebra lie.  The basis blades are numbered grade by
  grade in basis order; the blades of grade `g` form group `g`.  A dense
  coordinate buffer holds all groups; a sparse one holds only those of a grade
  set, one after the other.

    * `GradeTable.groupSize`, `denseStart`: the extent of a group in a dense buffer.
    * `GradeTable.size`, `offset`: the extent of a grade set, and of one of its
      groups, in a sparse buffer.
    * `GradeTable.blade`, `index`: from dense index to canonical blade and back.
    * `GradeTable.sign`, `vectors`: orientation and vectors of a stored blade.
-/

import GeometricAlgebra.Blade
import GeometricAlgebra.BasisOrder

namespace GeometricAlgebra

/-- A set of grades: bit `g` is set when grade `g` belongs to the set. -/
abbrev GradeSet := Nat

namespace GradeSet

/-- Whether a grade belongs to the set. -/
def has (s : GradeSet) (g : Nat) : Bool := s.testBit g

/-- The set with one more grade. -/
def insert (s : GradeSet) (g : Nat) : GradeSet := s ||| 1 <<< g

/-- The grades of the set below `g`. -/
def below (s : GradeSet) (g : Nat) : GradeSet := s % 1 <<< g

/-- The grades `0` to `n`. -/
def full (n : Nat) : GradeSet := 1 <<< (n + 1) - 1

end GradeSet

/-- The numbering of the basis blades of an algebra. -/
structure GradeTable where
  dimension : Nat
  -- The number of coordinates in each group.
  sizes : Array Nat
  -- The first dense index of each group.
  starts : Array Nat
  -- The canonical blade at each dense index.
  blades : Array Blade
  -- The dense index of each canonical blade.
  indices : Array Nat
  -- The orientation of each stored blade against its canonical one.
  signs : Array Sign
  -- The vectors of each stored blade, in stored order.
  vectorLists : Array (List Nat)
deriving Repr

namespace GradeTable

/-- The number of blades of each grade in dimension `n`. -/
def gradeCounts (n : Nat) : List Nat := (List.range (n + 1)).map (Blade.binomial n)

/-- Numbers the blades of a basis order.  A listed blade that repeats a vector
    counts as the scalar blade; no basis order of an algebra has one. -/
def ofOrder (n : Nat) (order : BasisOrder) : GradeTable :=
  let placed := order.map fun vs => (Blade.wedge? vs).getD (.plus, 0)
  let counts := gradeCounts n
  { dimension := n
    sizes := counts.toArray
    starts := ((List.range (n + 1)).map fun g => (counts.take g).foldr (· + ·) 0).toArray
    blades := (placed.map (·.2)).toArray
    indices := placed.zipIdx.foldl (fun ix p => ix.setIfInBounds p.1.2 p.2)
      (Array.replicate (1 <<< n) 0)
    signs := (placed.map (·.1)).toArray
    vectorLists := order.toArray }

variable (T : GradeTable)

/-! ## Groups -/

/-- The number of groups, one for each grade from zero to the dimension. -/
def numGroups : Nat := T.dimension + 1

/-- All groups, ascending. -/
def groups : List Nat := List.range T.numGroups

/-- All grades of the algebra. -/
def fullSet : GradeSet := .full T.dimension

/-- The number of coordinates in group `g`. -/
def groupSize (g : Nat) : Nat := T.sizes.getD g 0

/-- The first dense index of group `g`. -/
def denseStart (g : Nat) : Nat := T.starts.getD g 0

/-- The number of coordinates of a dense buffer. -/
def denseSize : Nat := T.blades.size

/-- The number of coordinates that a sparse buffer with these grades has. -/
def size (s : GradeSet) : Nat := ((T.groups.filter s.has).map T.groupSize).foldr (· + ·) 0

/-- Where group `g` starts in a sparse buffer with these grades. -/
def offset (s : GradeSet) (g : Nat) : Nat := T.size (s.below g)

/-! ## Blades -/

/-- The canonical blade at a dense index. -/
def blade (i : Nat) : Blade := T.blades.getD i 0

/-- The dense index of a canonical blade. -/
def index (b : Blade) : Nat := T.indices.getD b 0

/-- The orientation of the stored blade at a dense index. -/
def sign (i : Nat) : Sign := T.signs.getD i .plus

/-- The orientation of the stored form of a canonical blade. -/
def signOf (b : Blade) : Sign := T.sign (T.index b)

/-- The vectors of the stored blade at a dense index, in stored order. -/
def vectors (i : Nat) : List Nat := T.vectorLists.getD i []

/-- The grade of the blade at a dense index. -/
def gradeOf (i : Nat) : Nat := (T.blade i).grade

end GradeTable

end GeometricAlgebra
