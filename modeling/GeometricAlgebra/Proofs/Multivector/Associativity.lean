/-
  GeometricAlgebra.Proofs.Multivector.Associativity

  The geometric and the outer product are associative in exact arithmetic, for every metric and
  every basis order.

    * `Clifford.product_product`: when two products in a row agree with two others.
    * `Clifford.gp_assoc`, `Clifford.op_assoc`: three multivectors have the same product in both
      orders of multiplication.
-/

import GeometricAlgebra.Proofs.Multivector.Value

namespace GeometricAlgebra

namespace Clifford

variable {K : Type} [Field K] [LinearOrder K] [IsStrictOrderedRing K] {A : Clifford K}
  {x y z : Multivector K}

/-- Two products in a row agree with two others if they keep the same grades. -/
theorem product_product {k₁ k₂ k₃ k₄ : ProductKind} (h : k₁.Associates k₂ k₃ k₄)
    (hT : A.table.Lawful) (hx : x.WellFormed A) (hy : y.WellFormed A) (hz : z.WellFormed A) :
    A.product k₂ (A.product k₁ x y) z = A.product k₄ x (A.product k₃ y z) := by
  -- products are reduced, so they are equal once their values are, whatever groups they store
  apply (reduced_product hT k₂ _ _).ext_value (R := A.geometricRule) hT (reduced_product hT k₄ _ _)
    (wellFormed_product hT k₂ _ _) (wellFormed_product hT k₄ _ _)
  rw [value_product hT k₂ (wellFormed_product hT k₁ x y) hz, value_product hT k₁ hx hy,
    value_product hT k₄ hx (wellFormed_product hT k₃ y z), value_product hT k₃ hy hz,
    BladeSum.convolve_convolve (twist_mul_twist h)]

theorem gp_assoc (hT : A.table.Lawful) (hx : x.WellFormed A) (hy : y.WellFormed A)
    (hz : z.WellFormed A) : A.gp (A.gp x y) z = A.gp x (A.gp y z) :=
  product_product ProductKind.associates_geometric hT hx hy hz

theorem op_assoc (hT : A.table.Lawful) (hx : x.WellFormed A) (hy : y.WellFormed A)
    (hz : z.WellFormed A) : A.op (A.op x y) z = A.op x (A.op y z) :=
  product_product ProductKind.associates_outer hT hx hy hz

/-- In exact arithmetic, the geometric and the outer product of every accepted algebra are
    associative: both orders of multiplication store the same groups with the same coordinates. -/
theorem products_assoc_of_ofConfig {c : Config K} (h : ofConfig c = .ok A) (hx : x.WellFormed A)
    (hy : y.WellFormed A) (hz : z.WellFormed A) :
    A.gp (A.gp x y) z = A.gp x (A.gp y z) ∧ A.op (A.op x y) z = A.op x (A.op y z) :=
  have hT := lawful_of_ofConfig h
  ⟨gp_assoc hT hx hy hz, op_assoc hT hx hy hz⟩

/-- Three vectors of a degenerate plane; their outer product is not zero. -/
theorem products_assoc_degeneratePlane : ∃ A : Clifford ℚ, ofConfig Config.degeneratePlane = .ok A ∧
    let x := A.vector #[1, 0, 1]
    let y := A.vector #[0, 1, 2]
    let z := A.vector #[3, 1]
    A.gp (A.gp x y) z = A.gp x (A.gp y z) ∧ A.op (A.op x y) z = A.op x (A.op y z) ∧
      A.op x (A.op y z) = ⟨8, #[-5]⟩ := by
  have hA := ofConfig_eq_ok_iff.mpr ⟨_, Config.basisOrder_degeneratePlane, rfl⟩
  have hT := lawful_of_ofConfig hA
  have hvector := fun components => wellFormed_vector hT (dimension_pos_of_ofConfig hA) components
  have hassoc := products_assoc_of_ofConfig hA (hvector #[1, 0, 1]) (hvector #[0, 1, 2])
    (hvector #[3, 1])
  exact ⟨_, hA, hassoc.1, hassoc.2, by decide +kernel⟩

end Clifford

end GeometricAlgebra
