/-
  GeometricAlgebra.BasisOrder

  The order in which an algebra lists its basis blades.  An order is a list of
  blades, each given as the ordered list of its basis vectors; the blades come
  grade by grade.  `BasisOrder.standard` lists the blades of each grade in
  ascending lexicographic order with canonical orientation.
-/

namespace GeometricAlgebra

/-- Basis blades as ordered lists of vector indices, by ascending grade. -/
abbrev BasisOrder := List (List Nat)

namespace BasisOrder

/-- The sublists of `xs` with `k` entries; those that keep an earlier entry come
    first. -/
def choose {β : Type} : Nat → List β → List (List β)
  | 0, _ => [[]]
  | _ + 1, [] => []
  | k + 1, x :: xs => (choose k xs).map (x :: ·) ++ choose (k + 1) xs

/-- All blades of dimension `n`, grade by grade, each grade in ascending
    lexicographic order. -/
def standard (n : Nat) : BasisOrder :=
  (List.range (n + 1)).flatMap fun g => choose g (List.range n)

end BasisOrder

end GeometricAlgebra
