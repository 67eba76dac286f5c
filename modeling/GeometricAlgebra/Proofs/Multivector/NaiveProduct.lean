/-
  GeometricAlgebra.Proofs.Multivector.NaiveProduct

  The products against their definition.  The definition knows neither groups nor tables: it
  multiplies every pair of stored blades and adds what falls on each place of a dense buffer.

    * `Clifford.Refines`: what it means for the products of a kind to follow the definition.
    * `Clifford.refines_of_ofConfig`: in exact arithmetic they do, in every accepted algebra.
-/

import Mathlib.Algebra.Order.Ring.Rat
import GeometricAlgebra.Proofs.Multivector.Product
import GeometricAlgebra.Proofs.Numbering

namespace GeometricAlgebra

namespace Config

/-- A degenerate plane, with the last bivector declared as `e2^e0`. -/
def degeneratePlane : Config ℚ where
  name := "plane"
  vectors := ["e0", "e1", "e2"]
  metric := some [0, 1, -1]
  blades := some [[], ["e0"], ["e1"], ["e2"], ["e0", "e1"], ["e1", "e2"], ["e2", "e0"],
    ["e0", "e1", "e2"]]

theorem basisOrder_degeneratePlane : degeneratePlane.basisOrder =
    .ok [[], [0], [1], [2], [0, 1], [1, 2], [2, 0], [0, 1, 2]] := by decide +kernel

end Config

namespace Clifford

/-- The algebra of the degenerate plane. -/
def degeneratePlane : Clifford ℚ where
  config := .degeneratePlane
  table := .ofOrder 3 [[], [0], [1], [2], [0, 1], [1, 2], [2, 0], [0, 1, 2]]
  metric := #[0, 1, -1]

theorem ofConfig_degeneratePlane : ofConfig Config.degeneratePlane = .ok degeneratePlane :=
  ofConfig_eq_ok_iff.mpr ⟨_, Config.basisOrder_degeneratePlane, rfl⟩

/-- The pairs of dense indices whose blades multiply to the blade at `r`, among the grades that
    the product keeps. -/
def pairsAt {α : Type} (A : Clifford α) (kind : ProductKind) (r : Nat) : Finset (Nat × Nat) :=
  (Finset.range (2 ^ A.dimension) ×ˢ Finset.range (2 ^ A.dimension)).filter fun pq =>
    A.table.blade pq.1 ^^^ A.table.blade pq.2 = A.table.blade r ∧
      kind.accepts (A.table.gradeOf pq.1) (A.table.gradeOf pq.2) (A.table.gradeOf r) = true

/-- The products of a kind follow the naive definition. -/
structure Refines {K : Type} [Field K] [LinearOrder K] (A : Clifford K) (kind : ProductKind) :
    Prop where
  -- Products are multivectors of the algebra.
  wellFormed : ∀ x y, x.WellFormed A → y.WellFormed A → (A.product kind x y).WellFormed A
  -- Each coordinate is the sum over the pairs of stored blades that multiply to its blade.
  entry_eq : ∀ x y, x.WellFormed A → y.WellFormed A → ∀ r < 2 ^ A.dimension,
    A.entry (A.product kind x y) r = ∑ pq ∈ A.pairsAt kind r,
      (A.table.sign pq.1).toScalar * (A.table.sign pq.2).toScalar * (A.table.sign r).toScalar *
        (A.bladeProduct (A.table.blade pq.1) (A.table.blade pq.2)).1 *
          A.entry x pq.1 * A.entry y pq.2
  -- Exactly the groups with a coordinate that is not zero are stored.
  stored_iff : ∀ x y, x.WellFormed A → y.WellFormed A → ∀ g,
    (A.product kind x y).grades.has g = true ↔
      ∃ r < 2 ^ A.dimension, A.table.gradeOf r = g ∧ A.entry (A.product kind x y) r ≠ 0
  -- Which zero groups the operands store makes no difference.
  congr : ∀ x y x' y', x.WellFormed A → y.WellFormed A → x'.WellFormed A → y'.WellFormed A →
    A.toDense x' = A.toDense x → A.toDense y' = A.toDense y →
      A.product kind x' y' = A.product kind x y
  -- Sums and multiples pass through the left operand
  left_linear : ∀ x x' y, x.WellFormed A → x'.WellFormed A → y.WellFormed A →
    ∀ r < 2 ^ A.dimension, A.entry (A.product kind (A.add x x') y) r =
      A.entry (A.product kind x y) r + A.entry (A.product kind x' y) r ∧
    ∀ s, A.entry (A.product kind (A.scale x s) y) r = A.entry (A.product kind x y) r * s
  -- and through the right one.
  right_linear : ∀ x y y', x.WellFormed A → y.WellFormed A → y'.WellFormed A →
    ∀ r < 2 ^ A.dimension, A.entry (A.product kind x (A.add y y')) r =
      A.entry (A.product kind x y) r + A.entry (A.product kind x y') r ∧
    ∀ s, A.entry (A.product kind x (A.scale y s)) r = A.entry (A.product kind x y) r * s

section Exact

variable {K : Type} [Field K] [LinearOrder K] {c : Config K} {A : Clifford K}

/-- The sum over all pairs of places, by the pairs that contribute. -/
theorem sum_structureConstant (kind : ProductKind) (x y : Multivector K) (r : Nat) :
    ∑ p ∈ Finset.range (2 ^ A.table.dimension), ∑ q ∈ Finset.range (2 ^ A.table.dimension),
        A.structureConstant kind p q r * A.entry x p * A.entry y q =
      ∑ pq ∈ A.pairsAt kind r,
        (A.table.sign pq.1).toScalar * (A.table.sign pq.2).toScalar * (A.table.sign r).toScalar *
          (A.bladeProduct (A.table.blade pq.1) (A.table.blade pq.2)).1 *
            A.entry x pq.1 * A.entry y pq.2 := by
  rw [← Finset.sum_product', pairsAt, Finset.sum_filter]
  refine Finset.sum_congr rfl fun pq _ => ?_
  by_cases h : A.table.blade pq.1 ^^^ A.table.blade pq.2 = A.table.blade r ∧
      kind.accepts (A.table.gradeOf pq.1) (A.table.gradeOf pq.2) (A.table.gradeOf r) = true
  · rw [structureConstant, if_pos h, if_pos h]
  · rw [structureConstant, if_neg h, if_neg h, zero_mul, zero_mul]

variable [IsStrictOrderedRing K]

/-- In exact arithmetic every product follows the naive definition, in every accepted algebra. -/
theorem refines_of_ofConfig (h : ofConfig c = .ok A) (kind : ProductKind) : A.Refines kind := by
  have hT := lawful_of_ofConfig h
  exact {
    wellFormed := fun x y _ _ => wellFormed_product hT kind x y
    entry_eq := fun x y hx hy r hr => by
      rw [← sum_structureConstant kind x y r]
      exact entry_product hT hx hy hr
    stored_iff := fun x y _ _ g => reduced_product hT kind x y g
    congr := fun x y x' y' hx hy hx' hy' hxx hyy =>
      product_congr hT hx hy hx' hy' ((toDense_eq_iff hT hx' hx).mp hxx)
        ((toDense_eq_iff hT hy' hy).mp hyy)
    left_linear := fun x x' y hx hx' hy r hr =>
      ⟨entry_product_add_left hT hx hx' hy hr, fun s => entry_product_scale_left hT hx hy s hr⟩
    right_linear := fun x y y' hx hy hy' r hr =>
      ⟨entry_product_add_right hT hx hy hy' hr, fun s => entry_product_scale_right hT hx hy s hr⟩ }

/-- In a degenerate plane, `(e0 + e2)(e0 + 2 e2) = -2 - e2^e0`. -/
theorem refines_degeneratePlane : ∃ A : Clifford ℚ, ofConfig Config.degeneratePlane = .ok A ∧
    A.Refines .geometric ∧
      A.product .geometric (A.vector #[1, 0, 1]) (A.vector #[1, 0, 2]) = ⟨5, #[-2, 0, 0, -1]⟩ := by
  have hA := ofConfig_eq_ok_iff.mpr ⟨_, Config.basisOrder_degeneratePlane, rfl⟩
  exact ⟨_, hA, refines_of_ofConfig hA .geometric, by decide +kernel⟩

end Exact

end Clifford

end GeometricAlgebra
