/-
  GeometricAlgebra.Proofs.Multivector.InnerProducts

  The inner products against each other, in exact arithmetic and for every metric.  The two
  contractions are mirror images under reversal; together they are the modified Hestenes product, but
  for the scalar product, which both contain; and the Hestenes product is the modified one without
  scalar operands.

    * `Clifford.reverseSign_mul_twist`: the contractions of two blades, mirrored.
    * `Clifford.twist_modifiedHestenes`, `twist_hestenes`: the Hestenes products of two blades.
    * `Clifford.withoutScalar`: a multivector without its scalar group.
    * `Clifford.innerProducts_of_ofConfig`: the laws for every accepted algebra.
-/

import GeometricAlgebra.Proofs.Blade.Sandwich
import GeometricAlgebra.Proofs.Multivector.Involution
import GeometricAlgebra.Proofs.Multivector.ScalarProduct

namespace GeometricAlgebra.Clifford

open Blade (grade)

/-! ## Inner products of blades -/

section Blades

variable {K : Type} [Field K] [LinearOrder K] {A : Clifford K}

/-- Reversing the vectors of two blades and of their product turns one contraction into the
    other. -/
theorem reverseSign_mul_twist (a b : Nat) :
    (Blade.reverseSign (grade (a ^^^ b))).toScalar * A.twist .leftContraction a b =
      (Blade.reverseSign (grade a)).toScalar * (Blade.reverseSign (grade b)).toScalar *
        A.twist .rightContraction b a := by
  have hmirror : ProductKind.accepts .rightContraction (grade b) (grade a) (grade (b ^^^ a)) =
      ProductKind.accepts .leftContraction (grade a) (grade b) (grade (a ^^^ b)) := by
    rw [Nat.xor_comm b a]
    rfl
  rw [twist, twist, hmirror]
  cases ProductKind.accepts .leftContraction (grade a) (grade b) (grade (a ^^^ b)) with
  | false => simp
  | true => exact Blade.coefficient_reverse A.metric a b

/-- Both contractions keep the products of equal blades and nothing else in common. -/
theorem twist_modifiedHestenes (a b : Nat) :
    A.twist .modifiedHestenes a b + A.twist .scalar a b =
      A.twist .leftContraction a b + A.twist .rightContraction a b := by
  have hxor := Blade.grade_xor a b
  have hlea := Blade.grade_and_le a b
  have hleb := Blade.grade_and_le b a
  rw [Nat.and_comm] at hleb
  simp only [twist, ProductKind.accepts, Bool.or_eq_true, beq_iff_eq]
  by_cases hleft : grade (a ^^^ b) + grade a = grade b
  · by_cases hright : grade (a ^^^ b) + grade b = grade a
    · rw [if_pos (.inl hleft), if_pos (by omega), if_pos hleft, if_pos hright]
    · rw [if_pos (.inl hleft), if_neg (by omega), if_pos hleft, if_neg hright]
  · by_cases hright : grade (a ^^^ b) + grade b = grade a
    · rw [if_pos (.inr hright), if_neg (by omega), if_neg hleft, if_pos hright, add_comm]
    · rw [if_neg (by omega), if_neg (by omega), if_neg hleft, if_neg hright]

/-- The Hestenes product leaves scalar operands out. -/
theorem twist_hestenes (a b : Nat) : A.twist .hestenes a b =
    if grade a ≠ 0 ∧ grade b ≠ 0 then A.twist .modifiedHestenes a b else 0 := by
  by_cases h : grade a ≠ 0 ∧ grade b ≠ 0
  · simp [twist, ProductKind.accepts, h.1, h.2]
  · rw [if_neg h, twist, if_neg]
    intro haccepts
    simp only [ProductKind.accepts, Bool.and_eq_true, bne_iff_ne] at haccepts
    exact h haccepts.1

end Blades

/-! ## Parts of multivectors -/

/-- The multivector without its scalar group. -/
def withoutScalar {α : Type} (A : Clifford α) (x : Multivector α) : Multivector α :=
  A.extract x (A.table.fullSet ^^^ 1)

theorem wellFormed_withoutScalar {α : Type} {A : Clifford α} {x : Multivector α}
    (hx : x.WellFormed A) : (A.withoutScalar x).WellFormed A :=
  wellFormed_extract hx _

theorem group?_withoutScalar {α : Type} {A : Clifford α} {x : Multivector α} (hx : x.WellFormed A)
    (g : Nat) : A.group? (A.withoutScalar x) g = if g = 0 then none else A.group? x g := by
  have hmask : GradeSet.has (A.table.fullSet ^^^ 1) g =
      (decide (g ≤ A.table.dimension) ^^ decide (g = 0)) := by
    have hxor : GradeSet.has (A.table.fullSet ^^^ 1) g =
        (A.table.fullSet.has g ^^ GradeSet.has 1 g) := Nat.testBit_xor ..
    rw [hxor, GradeTable.fullSet, GradeSet.has_full, GradeSet.has_one]
  rw [withoutScalar, group?_extract hx, hmask]
  by_cases hzero : g = 0
  · simp [hzero]
  · by_cases hg : g ≤ A.table.dimension
    · simp [hzero, hg]
    · have hnone := group?_of_not_has (A := A) (Bool.eq_false_iff.mpr fun hs => hg (hx.le hs))
      simp [hzero, hg, hnone]

section Exact

variable {K : Type} [Field K] [LinearOrder K] {A : Clifford K} {R : BladeRule K}
  {x y : Multivector K}

theorem value_withoutScalar (hx : x.WellFormed A) (b : Blade) :
    value R A (A.withoutScalar x) b = if grade b = 0 then 0 else value R A x b := by
  have hcoordinate : A.coordinate (A.withoutScalar x) b =
      if grade b = 0 then 0 else A.coordinate x b := by
    rw [coordinate, group?_withoutScalar hx]
    by_cases hb : grade b = 0
    · rw [if_pos hb, if_pos hb]
    · rw [if_neg hb, if_neg hb, coordinate]
  rw [value_apply, value_apply, coefficient, coefficient, hcoordinate]
  by_cases hb : grade b = 0
  · simp [hb]
  · simp [hb]

/-! ## Inner products of multivectors -/

variable [IsStrictOrderedRing K] (hT : A.table.Lawful) (hx : x.WellFormed A) (hy : y.WellFormed A)
include hT hx hy

/-- The contractions are mirror images of each other. -/
theorem reverse_lc : A.reverse (A.lc x y) = A.rc (A.reverse y) (A.reverse x) := by
  have hlc := wellFormed_lc hT x y
  have hreduced : A.Reduced (A.reverse (A.lc x y)) :=
    reduced_signGrades hT hlc (reduced_product hT .leftContraction x y) _
  apply hreduced.ext_value (R := A.geometricRule) hT (reduced_product hT .rightContraction _ _)
    (wellFormed_reverse hlc) (wellFormed_rc hT _ _)
  rw [value_reverse hlc, lc, value_product hT _ hx hy, BladeSum.reverse,
    BladeSum.signed_convolve reverseSign_mul_twist, BladeSum.convolve_flip,
    value_product hT _ (wellFormed_reverse hy) (wellFormed_reverse hx), value_reverse hx,
    value_reverse hy]
  rfl

/-- The scalar product is all of the product that keeps scalars only. -/
theorem value_scalar_sp : value R A (.scalar (A.sp x y)) = value R A (A.product .scalar x y) := by
  rw [value_scalar hT, sp_eq_pairing (R := R) hT hx hy, ← convolve_scalar,
    ← value_product hT _ hx hy]

/-- Both contractions together count the scalar product twice. -/
theorem agree_mhip : A.Agree (A.mhip x y)
    (A.subtract (A.add (A.lc x y) (A.rc x y)) (.scalar (A.sp x y))) := by
  have hlc := wellFormed_lc hT x y
  have hrc := wellFormed_rc hT x y
  have hsum : BladeSum.convolve (A.twist .modifiedHestenes) (value A.geometricRule A x)
        (value A.geometricRule A y) +
      BladeSum.convolve (A.twist .scalar) (value A.geometricRule A x)
        (value A.geometricRule A y) =
      BladeSum.convolve (A.twist .leftContraction) (value A.geometricRule A x)
        (value A.geometricRule A y) +
      BladeSum.convolve (A.twist .rightContraction) (value A.geometricRule A x)
        (value A.geometricRule A y) := by
    rw [← BladeSum.convolve_add, ← BladeSum.convolve_add]
    exact BladeSum.convolve_congr fun a b _ _ => twist_modifiedHestenes a b
  rw [agree_iff (R := A.geometricRule),
    value_subtract hT (wellFormed_add hlc hrc) (Multivector.wellFormed_scalar hT _),
    value_add hT hlc hrc, value_scalar_sp hT hx hy]
  simp only [mhip, lc, rc]
  rw [value_product hT _ hx hy, value_product hT _ hx hy, value_product hT _ hx hy,
    value_product hT _ hx hy, ← hsum, add_sub_cancel_right]

/-- The Hestenes product is the modified one without scalar operands. -/
theorem hip_eq : A.hip x y = A.mhip (A.withoutScalar x) (A.withoutScalar y) := by
  have hx' := wellFormed_withoutScalar hx
  have hy' := wellFormed_withoutScalar hy
  apply (reduced_product hT .hestenes x y).ext_value (R := A.geometricRule) hT
    (reduced_product hT .modifiedHestenes _ _) (wellFormed_product hT _ _ _)
    (wellFormed_product hT _ _ _)
  rw [value_product hT _ hx hy, value_product hT _ hx' hy']
  have hrange : ∀ (z : Multivector K) (b : Nat), value A.geometricRule A z b ≠ 0 →
      b ∈ Finset.range (2 ^ A.dimension) :=
    fun z b hb => Finset.mem_range.mpr (lt_of_value_ne_zero hb)
  ext d
  rw [BladeSum.convolve_apply (hrange x), BladeSum.convolve_apply (hrange _)]
  refine Finset.sum_congr rfl fun a _ => ?_
  rw [twist_hestenes, value_withoutScalar hx, value_withoutScalar hy]
  by_cases ha : grade a = 0
  · simp [ha]
  · by_cases hb : grade (a ^^^ d) = 0
    · simp [hb]
    · simp [ha, hb]

end Exact

/-- In exact arithmetic, for every accepted algebra, whatever its metric: reversal exchanges the two
    contractions; the modified Hestenes product is both contractions less the scalar product; and
    the Hestenes product is the modified one of the operands without their scalar groups. -/
theorem innerProducts_of_ofConfig {K : Type} [Field K] [LinearOrder K] [IsStrictOrderedRing K]
    {c : Config K} {A : Clifford K} {x y : Multivector K} (h : ofConfig c = .ok A)
    (hx : x.WellFormed A) (hy : y.WellFormed A) :
    A.Agree (A.reverse (A.lc x y)) (A.rc (A.reverse y) (A.reverse x)) ∧
      A.Agree (A.mhip x y) (A.subtract (A.add (A.lc x y) (A.rc x y)) (.scalar (A.sp x y))) ∧
      A.Agree (A.hip x y) (A.mhip (A.withoutScalar x) (A.withoutScalar y)) := by
  have hT := lawful_of_ofConfig h
  exact ⟨.of_eq (reverse_lc hT hx hy), agree_mhip hT hx hy, .of_eq (hip_eq hT hx hy)⟩

/-- The laws at multivectors with a scalar, vectors and a bivector, in a degenerate plane. -/
theorem innerProducts_degeneratePlane :
    ofConfig Config.degeneratePlane = .ok degeneratePlane ∧
      let u := degeneratePlane.vector #[1, 2, 1]
      let v := degeneratePlane.vector #[0, 1, 3]
      let x := degeneratePlane.add u (degeneratePlane.gp u v)
      let y := degeneratePlane.add v (degeneratePlane.gp v u)
      degeneratePlane.Agree (degeneratePlane.reverse (degeneratePlane.lc x y))
          (degeneratePlane.rc (degeneratePlane.reverse y) (degeneratePlane.reverse x)) ∧
        degeneratePlane.Agree (degeneratePlane.mhip x y)
          (degeneratePlane.subtract
            (degeneratePlane.add (degeneratePlane.lc x y) (degeneratePlane.rc x y))
            (.scalar (degeneratePlane.sp x y))) ∧
        degeneratePlane.Agree (degeneratePlane.hip x y)
          (degeneratePlane.mhip (degeneratePlane.withoutScalar x)
            (degeneratePlane.withoutScalar y)) ∧
        degeneratePlane.mhip x y = ⟨3, #[-25, -10, -23, -19]⟩ ∧
        degeneratePlane.hip x y = ⟨3, #[-26, -9, -20, -15]⟩ := by
  have hA := ofConfig_degeneratePlane
  have hT := lawful_of_ofConfig hA
  have hvector := isVector_vector hT (dimension_pos_of_ofConfig hA)
  have hx := wellFormed_add (hvector #[1, 2, 1]).wellFormed
    (wellFormed_gp hT (degeneratePlane.vector #[1, 2, 1]) (degeneratePlane.vector #[0, 1, 3]))
  have hy := wellFormed_add (hvector #[0, 1, 3]).wellFormed
    (wellFormed_gp hT (degeneratePlane.vector #[0, 1, 3]) (degeneratePlane.vector #[1, 2, 1]))
  obtain ⟨hmirror, hmodified, hhestenes⟩ := innerProducts_of_ofConfig hA hx hy
  exact ⟨hA, hmirror, hmodified, hhestenes, by decide +kernel, by decide +kernel⟩

end GeometricAlgebra.Clifford
