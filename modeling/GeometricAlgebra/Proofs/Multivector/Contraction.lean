/-
  GeometricAlgebra.Proofs.Multivector.Contraction

  The laws that define the contractions, in exact arithmetic and for every metric.  Contracting by
  an outer product is contracting by one factor after the other, and a vector contracts an outer
  product as a derivation that changes sign with the grades it passes.

    * `ProductKind.associates_leftContraction`, `associates_rightContraction`, `associates_scalar`:
      the triples of grades that two products in a row keep.
    * `Clifford.twist_derivation`: a vector contracted onto the outer product of two blades.
    * `Clifford.lc_op`, `Clifford.rc_rc`, `Clifford.sp_op`: contraction by an outer product.
    * `Clifford.contraction_of_ofConfig`: the laws for every accepted algebra.
-/

import GeometricAlgebra.Proofs.Multivector.Associativity
import GeometricAlgebra.Proofs.Multivector.Involution
import GeometricAlgebra.Proofs.Multivector.Versor

namespace GeometricAlgebra

open Blade (Triangle grade)

namespace ProductKind

/-! ## Kept grades -/

theorem associates_leftContraction :
    outer.Associates leftContraction leftContraction leftContraction := by
  intro r s t rs st rst hrs hst hleft hright
  simp only [accepts, beq_iff_eq, Triangle] at *
  omega

theorem associates_rightContraction :
    rightContraction.Associates rightContraction outer rightContraction := by
  intro r s t rs st rst hrs hst hleft hright
  simp only [accepts, beq_iff_eq, Triangle] at *
  omega

theorem associates_scalar : outer.Associates scalar leftContraction scalar := by
  intro r s t rs st rst hrs hst hleft hright
  simp only [accepts, beq_iff_eq, Triangle] at *
  omega

end ProductKind

namespace Clifford

variable {K : Type} [Field K] [LinearOrder K] {A : Clifford K} {R : BladeRule K}
  {x y z v : Multivector K}

/-! ## Vectors and blades -/

/-- A vector either belongs to a blade, and contracts it, or extends it. -/
theorem twist_vector_left {u : Nat} (hu : grade u = 1) (a : Nat) : A.twist .geometric u a =
    A.twist .leftContraction u a + A.twist .outer u a := by
  have hxor := Blade.grade_xor u a
  have hand := Blade.grade_and_le u a
  simp only [twist, ProductKind.accepts, beq_iff_eq, if_true]
  by_cases hmem : grade (u &&& a) = 1
  · rw [if_pos (by omega), if_neg (by omega), add_zero]
  · rw [if_neg (by omega), if_pos (by omega), zero_add]

theorem twist_vector_right {u : Nat} (hu : grade u = 1) (a : Nat) : A.twist .geometric a u =
    A.twist .rightContraction a u + A.twist .outer a u := by
  have hxor := Blade.grade_xor a u
  have hand := Blade.grade_and_le u a
  rw [Nat.and_comm] at hand
  simp only [twist, ProductKind.accepts, beq_iff_eq, if_true]
  by_cases hmem : grade (a &&& u) = 1
  · rw [if_pos (by omega), if_neg (by omega), add_zero]
  · rw [if_neg (by omega), if_pos (by omega), zero_add]

/-- A vector passes a blade with the sign of the grade, and once less if it belongs to it. -/
theorem involutionSign_mul_coefficient {u : Nat} (hu : grade u = 1) (metric : Array K) (a b : Nat) :
    (Blade.involutionSign (grade a)).toScalar *
        (Blade.coefficient metric u b * Blade.coefficient metric a (u ^^^ b)) =
      (Sign.ofSwaps (grade (u &&& a))).toScalar *
        (Blade.coefficient metric u a * Blade.coefficient metric (u ^^^ a) b) := by
  have hsigns : Blade.involutionSign (grade a) * .ofSwaps (grade a * grade u + grade (a &&& u)) =
      .ofSwaps (grade (u &&& a)) := by
    rw [hu, Nat.mul_one, Sign.ofSwaps_add, Blade.involutionSign_eq, ← Sign.mul_assoc, Sign.mul_self,
      Sign.plus_mul, Nat.and_comm]
  rw [← Blade.coefficient_cocycle, Blade.coefficient_comm metric a u, ← hsigns, Sign.toScalar_mul,
    Nat.xor_comm a u]
  ring

/-- A vector contracts an outer product of two blades in the first factor and, past it, in the
    second; what both contain cancels. -/
theorem twist_derivation {u : Nat} (hu : grade u = 1) (a b : Nat) :
    A.twist .outer a b * A.twist .leftContraction u (a ^^^ b) =
      A.twist .leftContraction u a * A.twist .outer (u ^^^ a) b +
        (Blade.involutionSign (grade a)).toScalar *
          (A.twist .leftContraction u b * A.twist .outer a (u ^^^ b)) := by
  have hright : a ^^^ (u ^^^ b) = u ^^^ (a ^^^ b) := by
    rw [← Nat.xor_assoc, Nat.xor_comm a u, Nat.xor_assoc]
  have hcocycle := Blade.coefficient_cocycle A.metric u a b
  have hpass := involutionSign_mul_coefficient hu A.metric a b
  simp only [twist, ProductKind.accepts, beq_iff_eq, ite_zero_mul_ite_zero, hright, Nat.xor_assoc]
  rw [← hcocycle, mul_ite, mul_zero, hpass]
  generalize Blade.coefficient A.metric u a * Blade.coefficient A.metric (u ^^^ a) b = w
  -- every grade is known once it is known how many vectors are shared
  have hab := Blade.grade_xor a b
  have hua := Blade.grade_xor u a
  have hub := Blade.grade_xor u b
  have huab := Blade.grade_xor u (a ^^^ b)
  have hshared : grade (u &&& (a ^^^ b)) + 2 * grade (u &&& a &&& (u &&& b)) =
      grade (u &&& a) + grade (u &&& b) := by
    rw [Nat.and_xor_distrib_left]
    exact Blade.grade_xor (u &&& a) (u &&& b)
  have hlea : grade (u &&& a) ≤ 1 := hu ▸ Blade.grade_and_le u a
  have hleb : grade (u &&& b) ≤ 1 := hu ▸ Blade.grade_and_le u b
  have hleab : grade (u &&& (a ^^^ b)) ≤ 1 := hu ▸ Blade.grade_and_le u (a ^^^ b)
  have hkept : grade (a ^^^ b) = grade a + grade b ∧
      grade (u ^^^ (a ^^^ b)) + grade u = grade (a ^^^ b) ↔
        grade (a &&& b) = 0 ∧ grade (u &&& a) + grade (u &&& b) = 1 := by omega
  have hfirst : grade (u ^^^ a) + grade u = grade a ∧
      grade (u ^^^ (a ^^^ b)) = grade (u ^^^ a) + grade b ↔
        grade (u &&& a) = 1 ∧ grade (a &&& b) = grade (u &&& b) := by omega
  have hsecond : grade (u ^^^ b) + grade u = grade b ∧
      grade (u ^^^ (a ^^^ b)) = grade a + grade (u ^^^ b) ↔
        grade (u &&& b) = 1 ∧ grade (a &&& b) = grade (u &&& a) := by omega
  simp only [hkept, hfirst, hsecond]
  generalize grade (a &&& b) = m
  rcases Nat.le_one_iff_eq_zero_or_eq_one.mp hlea with ha | ha
  · -- the vector is not in `a`, so only the second factor can contain it
    rcases Nat.le_one_iff_eq_zero_or_eq_one.mp hleb with hb | hb
    · simp [ha, hb]
    · simp [ha, hb, Sign.ofSwaps]
  · rcases Nat.le_one_iff_eq_zero_or_eq_one.mp hleb with hb | hb
    · simp [ha, hb]
    · -- it is in both, so the outer product is zero and the two terms are opposite
      by_cases hm : m = 1
      · simp [ha, hb, hm, Sign.ofSwaps]
      · simp [ha, hb, hm]

/-! ## Contractions of multivectors -/

section Exact

variable [IsStrictOrderedRing K] (hT : A.table.Lawful) (hx : x.WellFormed A) (hy : y.WellFormed A)
include hT hx hy

theorem lc_op (hz : z.WellFormed A) : A.lc (A.op x y) z = A.lc x (A.lc y z) :=
  product_product ProductKind.associates_leftContraction hT hx hy hz

theorem rc_rc (hz : z.WellFormed A) : A.rc (A.rc x y) z = A.rc x (A.op y z) :=
  product_product ProductKind.associates_rightContraction hT hx hy hz

theorem sp_op (hz : z.WellFormed A) : A.sp (A.op x y) z = A.sp x (A.lc y z) :=
  congrArg Multivector.scalarPart (product_product ProductKind.associates_scalar hT hx hy hz)

theorem agree_lc_vector_op (hv : A.IsVector v) : A.Agree (A.lc v (A.op x y))
    (A.add (A.op (A.lc v x) y) (A.op (A.gradeInvolution x) (A.lc v y))) := by
  have hxy := wellFormed_product hT .outer x y
  have hvx := wellFormed_product hT .leftContraction v x
  have hvy := wellFormed_product hT .leftContraction v y
  have hinvolution := wellFormed_signGrades hx Blade.involutionSign
  rw [agree_iff (R := A.geometricRule), value_add hT (wellFormed_op hT _ _) (wellFormed_op hT _ _)]
  simp only [lc, op, gradeInvolution]
  rw [value_product hT _ hv.wellFormed hxy, value_product hT _ hx hy, value_product hT _ hvx hy,
    value_product hT _ hinvolution hvy, value_product hT _ hv.wellFormed hx,
    value_product hT _ hv.wellFormed hy, value_signGrades hx]
  exact hv.isVector_value.convolve_derivation (fun u a b hu => twist_derivation hu a b) _ _

omit hy in
theorem agree_gp_vector_left (hv : A.IsVector v) :
    A.Agree (A.gp v x) (A.add (A.lc v x) (A.op v x)) := by
  rw [agree_iff (R := A.geometricRule), value_add hT (wellFormed_lc hT v x) (wellFormed_op hT v x)]
  simp only [gp, lc, op]
  rw [value_product hT _ hv.wellFormed hx, value_product hT _ hv.wellFormed hx,
    value_product hT _ hv.wellFormed hx, ← BladeSum.convolve_add]
  apply BladeSum.convolve_congr
  intro u a hu _
  exact twist_vector_left (hv.isVector_value u hu) a

omit hy in
theorem agree_gp_vector_right (hv : A.IsVector v) :
    A.Agree (A.gp x v) (A.add (A.rc x v) (A.op x v)) := by
  rw [agree_iff (R := A.geometricRule), value_add hT (wellFormed_rc hT x v) (wellFormed_op hT x v)]
  simp only [gp, rc, op]
  rw [value_product hT _ hx hv.wellFormed, value_product hT _ hx hv.wellFormed,
    value_product hT _ hx hv.wellFormed, ← BladeSum.convolve_add]
  apply BladeSum.convolve_congr
  intro a u _ hu
  exact twist_vector_right (hv.isVector_value u hu) a

end Exact

/-- In exact arithmetic, for every accepted algebra, whatever its metric: contracting by an outer
    product is contracting by one factor after the other, on either side and in the scalar product;
    a vector contracts an outer product as a derivation, and its geometric product with any
    multivector is the contraction and the outer product together. -/
theorem contraction_of_ofConfig [IsStrictOrderedRing K] {c : Config K} (h : ofConfig c = .ok A)
    (hx : x.WellFormed A) (hy : y.WellFormed A) (hz : z.WellFormed A) (hv : A.IsVector v) :
    A.Agree (A.lc (A.op x y) z) (A.lc x (A.lc y z)) ∧
      A.Agree (A.rc (A.rc x y) z) (A.rc x (A.op y z)) ∧
      A.sp (A.op x y) z = A.sp x (A.lc y z) ∧
      A.Agree (A.lc v (A.op x y))
        (A.add (A.op (A.lc v x) y) (A.op (A.gradeInvolution x) (A.lc v y))) ∧
      A.Agree (A.gp v x) (A.add (A.lc v x) (A.op v x)) ∧
      A.Agree (A.gp x v) (A.add (A.rc x v) (A.op x v)) := by
  have hT := lawful_of_ofConfig h
  exact ⟨.of_eq (lc_op hT hx hy hz), .of_eq (rc_rc hT hx hy hz), sp_op hT hx hy hz,
    agree_lc_vector_op hT hx hy hv, agree_gp_vector_left hT hx hv, agree_gp_vector_right hT hx hv⟩

/-- The laws at multivectors of several grades of a degenerate plane. -/
theorem contraction_degeneratePlane :
    ofConfig Config.degeneratePlane = .ok degeneratePlane ∧
      let u := degeneratePlane.vector #[1, 2, 1]
      let v := degeneratePlane.vector #[0, 1, 3]
      let x := degeneratePlane.add u (degeneratePlane.gp u v)
      let y := degeneratePlane.vector #[1, 0, 1]
      let z := degeneratePlane.gp x (degeneratePlane.op y v)
      degeneratePlane.Agree (degeneratePlane.lc (degeneratePlane.op x y) z)
          (degeneratePlane.lc x (degeneratePlane.lc y z)) ∧
        degeneratePlane.Agree (degeneratePlane.rc (degeneratePlane.rc x y) z)
          (degeneratePlane.rc x (degeneratePlane.op y z)) ∧
        degeneratePlane.sp (degeneratePlane.op x y) z =
          degeneratePlane.sp x (degeneratePlane.lc y z) ∧
        degeneratePlane.Agree (degeneratePlane.lc v (degeneratePlane.op x y))
          (degeneratePlane.add (degeneratePlane.op (degeneratePlane.lc v x) y)
            (degeneratePlane.op (degeneratePlane.gradeInvolution x) (degeneratePlane.lc v y))) ∧
        degeneratePlane.Agree (degeneratePlane.gp v x)
          (degeneratePlane.add (degeneratePlane.lc v x) (degeneratePlane.op v x)) ∧
        degeneratePlane.Agree (degeneratePlane.gp x v)
          (degeneratePlane.add (degeneratePlane.rc x v) (degeneratePlane.op x v)) ∧
        degeneratePlane.lc v (degeneratePlane.op x y) = ⟨7, #[3, 2, 6, 2, -18, 0, 6]⟩ := by
  have hA := ofConfig_degeneratePlane
  have hT := lawful_of_ofConfig hA
  have hvector := isVector_vector hT (dimension_pos_of_ofConfig hA)
  have hv := hvector #[0, 1, 3]
  have hx := wellFormed_add (hvector #[1, 2, 1]).wellFormed
    (wellFormed_gp hT (degeneratePlane.vector #[1, 2, 1]) (degeneratePlane.vector #[0, 1, 3]))
  have hy := (hvector #[1, 0, 1]).wellFormed
  obtain ⟨hlc, hrc, hsp, hderivation, hleft, hright⟩ :=
    contraction_of_ofConfig hA hx hy (wellFormed_gp hT _ _) hv
  exact ⟨hA, hlc, hrc, hsp, hderivation, hleft, hright, by decide +kernel⟩

end Clifford

end GeometricAlgebra
