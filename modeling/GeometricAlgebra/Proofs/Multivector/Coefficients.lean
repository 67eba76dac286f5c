/-
  GeometricAlgebra.Proofs.Multivector.Coefficients

  Multivectors as coefficient functions on canonical blades.  The orientation of the stored
  blades is taken out, so a product is a twisted convolution over symmetric differences, whatever
  basis order the algebra has.

    * `Clifford.coefficient`: the coefficient of a canonical blade.
    * `Clifford.coefficient_product`: a product, coefficient by coefficient.
    * `ProductKind.Associates`: two products in a row keep the same grades as two others.
    * `Clifford.twist_mul_twist`: then they agree on three blades.
-/

import GeometricAlgebra.Proofs.Multivector.Product

namespace GeometricAlgebra

open Blade (Triangle)

namespace ProductKind

/-- Whatever the grades of three blades and of their products, two products in a row keep the same
    grades as two others. -/
def Associates (k₁ k₂ k₃ k₄ : ProductKind) : Prop :=
  ∀ r s t rs st rst : Nat, Triangle r s rs → Triangle s t st → Triangle rs t rst →
    Triangle r st rst → (k₁.accepts r s rs = true ∧ k₂.accepts rs t rst = true ↔
      k₃.accepts s t st = true ∧ k₄.accepts r st rst = true)

theorem associates_geometric : geometric.Associates geometric geometric geometric := by
  intro r s t rs st rst _ _ _ _
  exact Iff.rfl

/-- Grades add up in one order of multiplication if and only if they do in the other. -/
theorem associates_outer : outer.Associates outer outer outer := by
  intro r s t rs st rst hrs hst hleft hright
  simp only [accepts, beq_iff_eq, Triangle] at *
  omega

end ProductKind

namespace Clifford

variable {K : Type} [Field K] [LinearOrder K] {A : Clifford K} {kind : ProductKind}
  {x y : Multivector K}

/-! ## Coefficients -/

/-- The coefficient of a canonical blade. -/
def coefficient (A : Clifford K) (x : Multivector K) (b : Blade) : K :=
  (A.table.signOf b).toScalar * A.coordinate x b

/-- The coefficient that a product gives to two canonical blades; zero if it leaves the grade of
    their product out. -/
def twist (A : Clifford K) (kind : ProductKind) (a b : Blade) : K :=
  if kind.accepts a.grade b.grade (Blade.grade (a ^^^ b)) = true then Blade.coefficient A.metric a b
  else 0

section Lawful

variable (hT : A.table.Lawful)
include hT

omit hT in
/-- The orientation of the stored blade turns the coefficient back into the coordinate. -/
theorem coordinate_eq_coefficient (x : Multivector K) (b : Blade) :
    A.coordinate x b = (A.table.signOf b).toScalar * A.coefficient x b := by
  rw [coefficient, ← mul_assoc, Sign.toScalar_mul_self, one_mul]

omit hT in
theorem abs_coefficient [IsStrictOrderedRing K] (x : Multivector K) (b : Blade) :
    |A.coefficient x b| = |A.coordinate x b| := by
  rw [coefficient, abs_mul]
  cases A.table.signOf b <;> simp

theorem entry_index (hx : x.WellFormed A) {b : Nat} (hb : b < 2 ^ A.table.dimension) :
    A.entry x (A.table.index b) = (A.table.signOf b).toScalar * A.coefficient x b := by
  rw [← coordinate_eq_entry hT hx hb, coordinate_eq_coefficient]

/-- Equal coefficients, equal entries. -/
theorem entry_eq_of_coefficient (hx : x.WellFormed A) (hy : y.WellFormed A)
    (h : ∀ b < 2 ^ A.table.dimension, A.coefficient x b = A.coefficient y b) {r : Nat}
    (hr : r < 2 ^ A.table.dimension) : A.entry x r = A.entry y r := by
  have hb := hT.blade_lt r hr
  rw [← hT.index_blade r hr, entry_index hT hx hb, entry_index hT hy hb, h _ hb]

theorem structureConstant_index {a b d : Nat} (ha : a < 2 ^ A.table.dimension)
    (hb : b < 2 ^ A.table.dimension) (hd : d < 2 ^ A.table.dimension) :
    A.structureConstant kind (A.table.index a) (A.table.index b) (A.table.index d) =
      if b = a ^^^ d then (A.table.signOf a).toScalar * (A.table.signOf b).toScalar *
        (A.table.signOf d).toScalar * A.twist kind a b else 0 := by
  simp only [structureConstant, GradeTable.gradeOf, hT.blade_index a ha, hT.blade_index b hb,
    hT.blade_index d hd]
  by_cases hbd : b = a ^^^ d
  · have habd : a ^^^ b = d := xor_eq_iff.mpr hbd
    rw [if_pos hbd, twist, habd]
    cases kind.accepts (Blade.grade a) (Blade.grade b) (Blade.grade d) with
    | true => simp [GradeTable.signOf, bladeProduct, Blade.coefficient]
    | false => simp
  · rw [if_neg hbd, if_neg fun h => hbd (xor_eq_iff.mp h.1)]

variable [IsStrictOrderedRing K]

/-- A product is a twisted convolution of coefficients. -/
theorem coefficient_product (hx : x.WellFormed A) (hy : y.WellFormed A) {d : Nat}
    (hd : d < 2 ^ A.table.dimension) : A.coefficient (A.product kind x y) d =
      ∑ a ∈ Finset.range (2 ^ A.table.dimension),
        A.twist kind a (a ^^^ d) * A.coefficient x a * A.coefficient y (a ^^^ d) := by
  rw [coefficient, coordinate_eq_entry hT (wellFormed_product hT kind x y) hd,
    entry_product hT hx hy (hT.index_lt d hd), hT.sum_index, Finset.mul_sum]
  refine Finset.sum_congr rfl fun a ha => ?_
  have ha := Finset.mem_range.mp ha
  have hb : a ^^^ d < 2 ^ A.table.dimension := Nat.xor_lt_two_pow ha hd
  -- only the blade that completes `a` to `d` contributes
  rw [hT.sum_index, Finset.sum_eq_single (a ^^^ d)]
  · rw [structureConstant_index hT ha hb hd, if_pos rfl, entry_index hT hx ha,
      entry_index hT hy hb]
    -- every orientation enters twice
    have hsa : ((A.table.signOf a).toScalar * (A.table.signOf a).toScalar : K) = 1 := by simp
    have hsb : ((A.table.signOf (a ^^^ d)).toScalar *
        (A.table.signOf (a ^^^ d)).toScalar : K) = 1 := by simp
    have hsd : ((A.table.signOf d).toScalar * (A.table.signOf d).toScalar : K) = 1 := by simp
    generalize ((A.table.signOf a).toScalar : K) = sa at *
    generalize ((A.table.signOf (a ^^^ d)).toScalar : K) = sb at *
    generalize ((A.table.signOf d).toScalar : K) = sd at *
    calc sd * (sa * sb * sd * A.twist kind a (a ^^^ d) * (sa * A.coefficient x a) *
          (sb * A.coefficient y (a ^^^ d)))
        = sa * sa * (sb * sb) * (sd * sd) *
          (A.twist kind a (a ^^^ d) * A.coefficient x a * A.coefficient y (a ^^^ d)) := by ring
      _ = A.twist kind a (a ^^^ d) * A.coefficient x a * A.coefficient y (a ^^^ d) := by
          rw [hsa, hsb, hsd, one_mul, one_mul, one_mul]
  · intro b hbmem hne
    rw [structureConstant_index hT ha (Finset.mem_range.mp hbmem) hd, if_neg hne, zero_mul,
      zero_mul]
  · exact fun hnot => absurd (Finset.mem_range.mpr hb) hnot

end Lawful

/-! ## Twists -/

theorem twist_geometric (a b : Blade) :
    A.twist .geometric a b = Blade.coefficient A.metric a b := by
  rw [twist, ProductKind.accepts, if_pos rfl]

/-- The outer product keeps a pair of blades if no vector is shared. -/
theorem twist_outer (a b : Blade) : A.twist .outer a b =
    if Blade.grade (a ^^^ b) = a.grade + b.grade then Blade.coefficient A.metric a b else 0 := by
  simp only [twist, ProductKind.accepts, beq_iff_eq]

/-- Blades multiply associatively, so two products of three blades in a row agree with two others
    once they keep the same triples. -/
theorem twist_mul_twist {k₁ k₂ k₃ k₄ : ProductKind} (h : k₁.Associates k₂ k₃ k₄) (a b c : Nat) :
    A.twist k₁ a b * A.twist k₂ (a ^^^ b) c = A.twist k₃ b c * A.twist k₄ a (b ^^^ c) := by
  have hkept := h _ _ _ _ _ _ (Blade.grade_triangle a b) (Blade.grade_triangle b c)
    (Blade.grade_triangle (a ^^^ b) c) (Nat.xor_assoc a b c ▸ Blade.grade_triangle a (b ^^^ c))
  simp only [twist, ite_zero_mul_ite_zero]
  rw [Blade.coefficient_cocycle, ← Nat.xor_assoc]
  exact if_congr hkept rfl rfl

end Clifford

end GeometricAlgebra
