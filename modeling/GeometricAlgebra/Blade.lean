/-
  GeometricAlgebra.Blade

  Basis blades as bitmaps.  A basis blade is a set of basis vectors; bit `i`
  stands for basis vector `i`, so `0b101` is the wedge of the first and the third
  vector.  The canonical orientation lists the vectors in ascending order.

    * `Blade.grade`, `Blade.vectors`: how many vectors, and which.
    * `Blade.reorderingSign a b`: the sign of sorting the vectors of `a` followed
      by those of `b`.
    * `Blade.geometricProduct metric a b`: the product of two canonical blades
      under a diagonal metric, a scalar times the blade `a ^^^ b`.
    * `Blade.wedge? vs`: the wedge of a list of vectors in the given order.
    * `Blade.reverseSign`, `involutionSign`, `conjugateSign`: the three grade
      involutions, by grade.
-/

import GeometricAlgebra.Scalar
import GeometricAlgebra.Sign

namespace GeometricAlgebra

/-- A set of basis vectors: bit `i` is set when vector `i` belongs to the blade. -/
abbrev Blade := Nat

namespace Blade

/-! ## Grade and vectors -/

/-- The number of basis vectors of a blade. -/
def grade : Blade → Nat
  | 0 => 0
  | b + 1 => (b + 1) % 2 + grade ((b + 1) / 2)
termination_by b => b
decreasing_by exact Nat.div_lt_self (Nat.succ_pos b) (by decide)

/-- The basis vectors of a blade, ascending. -/
def vectors (b : Blade) : List Nat :=
  (List.range (b.log2 + 1)).filter b.testBit

/-- The blade of a single basis vector. -/
def ofVector (i : Nat) : Blade := 1 <<< i

/-- The blade of the vectors in a list; a repeated vector counts once. -/
def ofVectors (vs : List Nat) : Blade := vs.foldr (fun v b => ofVector v ||| b) 0

/-- The blade of the first `n` basis vectors, the pseudoscalar of dimension `n`. -/
def full (n : Nat) : Blade := 1 <<< n - 1

/-! ## Orientation -/

/-- The number of neighbour swaps that sort the vectors of `a` followed by those
    of `b`: each vector of `a` passes the vectors of `b` with a lower index. -/
def swaps : Blade → Blade → Nat
  | 0, _ => 0
  | a + 1, b => grade ((a + 1) / 2 &&& b) + swaps ((a + 1) / 2) b
termination_by a => a
decreasing_by exact Nat.div_lt_self (Nat.succ_pos a) (by decide)

/-- The sign of sorting the vectors of `a` followed by those of `b`. -/
def reorderingSign (a b : Blade) : Sign := .ofSwaps (swaps a b)

/-- The sign of reversing the vectors of a blade of grade `g`. -/
def reverseSign (g : Nat) : Sign := if 2 ≤ g % 4 then .minus else .plus

/-- The sign of negating every vector of a blade of grade `g`. -/
def involutionSign (g : Nat) : Sign := if g % 2 = 1 then .minus else .plus

/-- The sign of reversing and negating the vectors of a blade of grade `g`. -/
def conjugateSign (g : Nat) : Sign := if g % 4 = 1 ∨ g % 4 = 2 then .minus else .plus

/-- Appends vector `v` to a wedge: nothing if the vector is already there, else
    the vector moves past those of higher index. -/
def append? (w : Sign × Blade) (v : Nat) : Option (Sign × Blade) :=
  if w.2.testBit v then none
  else some (w.1 * .ofSwaps (grade (w.2 >>> (v + 1))), w.2 ||| ofVector v)

/-- The wedge of a list of vectors, as a sign and a canonical blade; `none` when
    a vector repeats, since the wedge is then zero. -/
def wedge? (vs : List Nat) : Option (Sign × Blade) := vs.foldlM append? (.plus, 0)

/-! ## Products -/

/-- The geometric product of two canonical blades: each shared vector leaves its
    metric entry, in ascending order, and the others are sorted.  A vector
    beyond the metric counts as a unit vector. -/
def geometricProduct {α : Type} [Scalar α] (metric : Array α) (a b : Blade) : α × Blade :=
  ((vectors (a &&& b)).foldl (fun c i => c * metric.getD i 1) (reorderingSign a b).toScalar,
    a ^^^ b)

/-! ## Counting blades -/

/-- The number of blades of grade `k` in dimension `n`, one factor at a time:
    after each step the value is itself a number of blades, so every division is
    exact. -/
def binomial (n k : Nat) : Nat :=
  if n < k then 0
  else (List.range (min k (n - k))).foldl (fun r i => r * (n - i) / (i + 1)) 1

end Blade

end GeometricAlgebra
