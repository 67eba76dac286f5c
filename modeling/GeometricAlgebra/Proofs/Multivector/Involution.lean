/-
  GeometricAlgebra.Proofs.Multivector.Involution

  Reversal, grade involution and Clifford conjugation in exact arithmetic.  Each gives every grade
  a sign, keeps the stored groups and undoes itself; the grade involution respects the geometric
  product, the other two exchange its operands.

    * `Clifford.ext_value`: equal grades and equal values, equal multivectors.
    * `Clifford.signGrades_signGrades`: signs of grades multiply.
    * `Clifford.reverse_gp`, `Clifford.gradeInvolution_gp`, `Clifford.cliffordConjugate_gp`: each
      involution of a product.
-/

import GeometricAlgebra.Proofs.Blade.Involution
import GeometricAlgebra.Proofs.Multivector.Value

namespace GeometricAlgebra

namespace Clifford

variable {K : Type} [Field K] [LinearOrder K] {A : Clifford K} {R : BladeRule K}
  {x y : Multivector K}

theorem wellFormed_reverse (hx : x.WellFormed A) : (A.reverse x).WellFormed A :=
  wellFormed_signGrades hx _

theorem wellFormed_gradeInvolution (hx : x.WellFormed A) : (A.gradeInvolution x).WellFormed A :=
  wellFormed_signGrades hx _

section Lawful

variable (hT : A.table.Lawful)
include hT

/-! ## Signs of grades -/

/-- Equal grades and equal values, equal multivectors. -/
theorem ext_value (hx : x.WellFormed A) (hy : y.WellFormed A) (hgrades : x.grades = y.grades)
    (h : value R A x = value R A y) : x = y := by
  apply ext_entry hT hx hy hgrades
  intro r hr
  rw [entry_eq_coordinate hT hx hr, entry_eq_coordinate hT hy hr]
  exact agree_iff.mpr h _ (hT.blade_lt r hr)

/-- Signs of grades given one after the other multiply. -/
theorem signGrades_signGrades (hx : x.WellFormed A) (σ τ : Nat → Sign) :
    A.signGrades σ (A.signGrades τ x) = A.signGrades (fun g => σ g * τ g) x := by
  have hτ := wellFormed_signGrades hx τ
  have hvalue : value A.geometricRule A (A.signGrades σ (A.signGrades τ x)) =
      value A.geometricRule A (A.signGrades (fun g => σ g * τ g) x) := by
    rw [value_signGrades hτ, value_signGrades hx, value_signGrades hx, BladeSum.signed_signed]
  exact ext_value hT (wellFormed_signGrades hτ σ) (wellFormed_signGrades hx _) rfl hvalue

/-- Signs of grades change nothing the second time. -/
theorem signGrades_self (hx : x.WellFormed A) (σ : Nat → Sign) :
    A.signGrades σ (A.signGrades σ x) = x := by
  rw [signGrades_signGrades hT hx]
  have hvalue : value A.geometricRule A (A.signGrades (fun g => σ g * σ g) x) =
      value A.geometricRule A x := by
    ext b
    rw [value_signGrades hx, BladeSum.signed_apply, Sign.mul_self, Sign.toScalar_plus, one_mul]
  exact ext_value hT (wellFormed_signGrades hx _) hx rfl hvalue

/-- A sign makes no entry zero, so the stored groups stay the ones with an entry that is not. -/
theorem reduced_signGrades (hx : x.WellFormed A) (hrx : A.Reduced x) (σ : Nat → Sign) :
    A.Reduced (A.signGrades σ x) := by
  intro g
  have hgrades : (A.signGrades σ x).grades = x.grades := rfl
  rw [hgrades, hrx g]
  refine exists_congr fun r => and_congr_right fun hr => and_congr_right fun _ => ?_
  have hcoordinate : A.coordinate (A.signGrades σ x) (A.table.blade r) =
      A.coordinate x (A.table.blade r) * (σ (Blade.grade (A.table.blade r))).toScalar :=
    coordinate_mapGroups hx (f := fun g s => s * (σ g).toScalar) (fun _ => zero_mul _) _
  rw [entry_eq_coordinate hT (wellFormed_signGrades hx σ) hr, entry_eq_coordinate hT hx hr,
    hcoordinate]
  exact (mul_ne_zero_iff_right (Sign.toScalar_ne_zero _)).symm

theorem cliffordConjugate_eq (hx : x.WellFormed A) :
    A.cliffordConjugate x = A.reverse (A.gradeInvolution x) := by
  have hsigns : Blade.conjugateSign = fun g => Blade.reverseSign g * Blade.involutionSign g :=
    funext Blade.conjugateSign_eq
  rw [reverse, gradeInvolution, signGrades_signGrades hT hx, cliffordConjugate, hsigns]

/-! ## Involutions of products -/

variable [IsStrictOrderedRing K] (hx : x.WellFormed A) (hy : y.WellFormed A)
include hx hy

theorem reverse_gp : A.reverse (A.gp x y) = A.gp (A.reverse y) (A.reverse x) := by
  have hxy := wellFormed_gp hT x y
  have hyx := wellFormed_gp hT (A.reverse y) (A.reverse x)
  have hleft : A.Reduced (A.reverse (A.gp x y)) := reduced_signGrades hT hxy (reduced_gp hT x y) _
  apply hleft.ext_value (R := A.geometricRule) hT (reduced_gp hT _ _) (wellFormed_reverse hxy) hyx
  rw [value_reverse hxy, value_gp hT hx hy, BladeSum.reverse_mul,
    value_gp hT (wellFormed_reverse hy) (wellFormed_reverse hx), value_reverse hx,
    value_reverse hy]

theorem gradeInvolution_gp :
    A.gradeInvolution (A.gp x y) = A.gp (A.gradeInvolution x) (A.gradeInvolution y) := by
  have hxy := wellFormed_gp hT x y
  have hinvolution := wellFormed_gp hT (A.gradeInvolution x) (A.gradeInvolution y)
  have hleft : A.Reduced (A.gradeInvolution (A.gp x y)) :=
    reduced_signGrades hT hxy (reduced_gp hT x y) _
  -- two blades and their product have as many vectors up to parity
  have hblades : ∀ a b : Nat, ((Blade.involutionSign (Blade.grade (a ^^^ b))).toScalar : K) *
      A.geometricRule.factor a b = (Blade.involutionSign (Blade.grade a)).toScalar *
        (Blade.involutionSign (Blade.grade b)).toScalar * A.geometricRule.factor a b := by
    intro a b
    rw [Blade.involutionSign_xor, Sign.toScalar_mul]
  apply hleft.ext_value (R := A.geometricRule) hT (reduced_gp hT _ _)
    (wellFormed_gradeInvolution hxy) hinvolution
  rw [gradeInvolution, value_signGrades hxy, value_gp hT hx hy, BladeSum.mul_def,
    BladeSum.signed_convolve hblades,
    value_gp hT (wellFormed_gradeInvolution hx) (wellFormed_gradeInvolution hy),
    BladeSum.mul_def, gradeInvolution, gradeInvolution, value_signGrades hx, value_signGrades hy]

theorem cliffordConjugate_gp : A.cliffordConjugate (A.gp x y) =
    A.gp (A.cliffordConjugate y) (A.cliffordConjugate x) := by
  rw [cliffordConjugate_eq hT (wellFormed_gp hT x y), gradeInvolution_gp hT hx hy,
    reverse_gp hT (wellFormed_gradeInvolution hx) (wellFormed_gradeInvolution hy),
    cliffordConjugate_eq hT hx, cliffordConjugate_eq hT hy]

end Lawful

/-- In exact arithmetic, for every accepted algebra, the three involutions respect the geometric
    product, the reversing two in the opposite order.  Each undoes itself, and conjugation is
    reversal after the grade involution. -/
theorem involutions_of_ofConfig [IsStrictOrderedRing K] {c : Config K} (h : ofConfig c = .ok A)
    (hx : x.WellFormed A) (hy : y.WellFormed A) :
    A.reverse (A.gp x y) = A.gp (A.reverse y) (A.reverse x) ∧
      A.cliffordConjugate (A.gp x y) = A.gp (A.cliffordConjugate y) (A.cliffordConjugate x) ∧
      A.gradeInvolution (A.gp x y) = A.gp (A.gradeInvolution x) (A.gradeInvolution y) ∧
      A.reverse (A.reverse x) = x ∧
      A.gradeInvolution (A.gradeInvolution x) = x ∧
      A.cliffordConjugate (A.cliffordConjugate x) = x ∧
      A.cliffordConjugate x = A.reverse (A.gradeInvolution x) := by
  have hT := lawful_of_ofConfig h
  exact ⟨reverse_gp hT hx hy, cliffordConjugate_gp hT hx hy, gradeInvolution_gp hT hx hy,
    signGrades_self hT hx _, signGrades_self hT hx _, signGrades_self hT hx _,
    cliffordConjugate_eq hT hx⟩

/-- Two multivectors of a degenerate plane that do not commute. -/
theorem involutions_degeneratePlane :
    ofConfig Config.degeneratePlane = .ok degeneratePlane ∧
      let u := degeneratePlane.vector #[1, 2, 1]
      let v := degeneratePlane.vector #[0, 1, 3]
      let x := degeneratePlane.add u (degeneratePlane.gp u v)
      let y := degeneratePlane.add (degeneratePlane.vector #[1, 0, 1]) (degeneratePlane.op u v)
      degeneratePlane.reverse (degeneratePlane.gp x y) =
          degeneratePlane.gp (degeneratePlane.reverse y) (degeneratePlane.reverse x) ∧
        degeneratePlane.cliffordConjugate (degeneratePlane.gp x y) =
          degeneratePlane.gp (degeneratePlane.cliffordConjugate y)
            (degeneratePlane.cliffordConjugate x) ∧
        degeneratePlane.gradeInvolution (degeneratePlane.gp x y) =
          degeneratePlane.gp (degeneratePlane.gradeInvolution x)
            (degeneratePlane.gradeInvolution y) ∧
        degeneratePlane.gp x y = ⟨15, #[24, -3, 0, 9, -3, -3, 3, 6]⟩ := by
  have hA := ofConfig_degeneratePlane
  have hT := lawful_of_ofConfig hA
  have hvector := wellFormed_vector hT (dimension_pos_of_ofConfig hA)
  have hx := wellFormed_add (hvector #[1, 2, 1])
    (wellFormed_gp hT (degeneratePlane.vector #[1, 2, 1]) (degeneratePlane.vector #[0, 1, 3]))
  have hy := wellFormed_add (hvector #[1, 0, 1])
    (wellFormed_op hT (degeneratePlane.vector #[1, 2, 1]) (degeneratePlane.vector #[0, 1, 3]))
  obtain ⟨hreverse, hconjugate, hinvolution, -⟩ := involutions_of_ofConfig hA hx hy
  exact ⟨hA, hreverse, hconjugate, hinvolution, by decide +kernel⟩

end Clifford

end GeometricAlgebra
