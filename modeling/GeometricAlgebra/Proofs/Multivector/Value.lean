/-
  GeometricAlgebra.Proofs.Multivector.Value

  Multivectors as sums of canonical blades.  The value of a multivector leaves out which groups
  are stored and how the stored blades are oriented; products, reverses and parts of multivectors
  have the values of the same operations on sums.

    * `Clifford.geometricRule`, `Clifford.outerRule`: the geometric and the outer product of an
      algebra as rules for blades.
    * `Clifford.value`: the sum of a multivector, under either rule.
    * `Clifford.Agree`: multivectors with the same coordinates.
    * `value_product`, `value_scalar`, `value_signGrades`, `value_versorInverse`: the value of each
      operation.
-/

import GeometricAlgebra.Proofs.Blade.Sum
import GeometricAlgebra.Proofs.Multivector.Coefficients
import GeometricAlgebra.Proofs.Multivector.NaiveProduct
import GeometricAlgebra.Multivector.Versor

namespace GeometricAlgebra

/-- The grade set of a scalar. -/
@[simp] theorem GradeSet.has_one (k : Nat) : has 1 k = decide (k = 0) := by
  have hinsert := has_insert 0 0 k
  rwa [has_zero, Bool.false_or] at hinsert

/-- A scalar or a vector is stored as it is. -/
theorem GradeTable.Lawful.signOf_of_grade_le_one {T : GradeTable} (hT : T.Lawful) {b : Nat}
    (hb : b < 2 ^ T.dimension) (hgrade : Blade.grade b ≤ 1) : T.signOf b = .plus := by
  have hi := hT.index_lt b hb
  have hlength : (T.vectors (T.index b)).length ≤ 1 := by
    rw [hT.length_vectors hi, gradeOf, hT.blade_index b hb]
    exact hgrade
  -- fewer than two vectors have no inversion
  rw [signOf, hT.sign_eq hi]
  cases hvs : T.vectors (T.index b) with
  | nil => rfl
  | cons v vs =>
    rw [hvs, List.length_cons] at hlength
    have hrest : vs = [] := List.eq_nil_of_length_eq_zero (by omega)
    rw [hrest]
    rfl

theorem GradeTable.Lawful.signOf_zero {T : GradeTable} (hT : T.Lawful) : T.signOf 0 = .plus :=
  hT.signOf_of_grade_le_one (Nat.two_pow_pos _) (by simp)

namespace Clifford

/-! ## Coordinates of operations -/

section Coordinates

variable {α : Type} [Scalar α] {A : Clifford α} {x y : Multivector α}

/-- Two multivectors have the same coordinates, whatever groups they store. -/
def Agree (A : Clifford α) (x y : Multivector α) : Prop :=
  ∀ b < 2 ^ A.dimension, A.coordinate x b = A.coordinate y b

theorem Agree.of_eq (h : x = y) : A.Agree x y := fun b _ => congrArg (A.coordinate · b) h

theorem coordinate_of_not_has {b : Blade} (h : x.grades.has b.grade = false) :
    A.coordinate x b = 0 := by
  rw [coordinate, group?_of_not_has h]

/-- A function of the entries that keeps zero, applied group by group. -/
theorem coordinate_mapGroups (hx : x.WellFormed A) {f : Nat → α → α} (hf : ∀ g, f g 0 = 0)
    (b : Blade) : A.coordinate (A.mapGroups (fun g c => c.map (f g)) x) b =
      f b.grade (A.coordinate x b) := by
  rw [coordinate, coordinate, group?_mapGroups (fun _ _ => Array.size_map) hx]
  cases A.group? x b.grade with
  | none => exact (hf _).symm
  | some group =>
    simp only [Option.map_some, Array.getD_eq_getD_getElem?, Array.getElem?_map]
    cases group[A.localIndex b]? with
    | none => exact (hf _).symm
    | some s => rfl

theorem coordinate_extract (hx : x.WellFormed A) (mask : GradeSet) (b : Blade) :
    A.coordinate (A.extract x mask) b =
      if mask.has b.grade = true then A.coordinate x b else 0 := by
  rw [coordinate, group?_extract hx]
  cases mask.has b.grade with
  | false => rfl
  | true => rfl

omit [Scalar α] in
theorem localIndex_zero (hT : A.table.Lawful) : A.localIndex 0 = 0 := by
  have hindex := hT.denseStart_le_index (Nat.two_pow_pos _)
  rw [Blade.grade_zero, hT.groupSize_zero] at hindex
  rw [localIndex, Blade.grade_zero]
  omega

theorem coordinate_zero (hT : A.table.Lawful) (x : Multivector α) :
    A.coordinate x 0 = x.scalarPart := by
  rw [coordinate, localIndex_zero hT, Blade.grade_zero, Multivector.scalarPart]
  cases hs : x.grades.has 0 with
  | false => rw [group?_of_not_has hs, if_neg (by decide)]
  | true =>
    rw [group?_of_has hs, GradeTable.offset_zero, hT.groupSize_zero, if_pos rfl]
    change (x.coords.extract 0 (0 + 1)).getD 0 0 = x.coords.getD 0 0
    rw [Array.getD_eq_getD_getElem?, Array.getD_eq_getD_getElem?, Array.getElem?_extract]
    by_cases hlt : 0 < x.coords.size
    · rw [if_pos (by omega)]
    · rw [if_neg (by omega), Array.getElem?_eq_none (Nat.not_lt.mp hlt)]

theorem coordinate_scalar (hT : A.table.Lawful) (s : α) (b : Blade) :
    A.coordinate (.scalar s) b = if b = 0 then s else 0 := by
  by_cases hb : b = 0
  · rw [if_pos hb, hb, coordinate_zero hT]
    simp [Multivector.scalarPart, Multivector.scalar]
  · have hgrade : b.grade ≠ 0 := fun h => hb (Blade.grade_eq_zero.mp h)
    rw [if_neg hb, coordinate_of_not_has]
    simpa [Multivector.scalar] using hgrade

end Coordinates

variable {K : Type} [Field K] [LinearOrder K] {A : Clifford K} {R : BladeRule K}
  {x y v : Multivector K}

theorem wellFormed_gp (hT : A.table.Lawful) (x y : Multivector K) : (A.gp x y).WellFormed A :=
  wellFormed_product hT .geometric x y

theorem wellFormed_op (hT : A.table.Lawful) (x y : Multivector K) : (A.op x y).WellFormed A :=
  wellFormed_product hT .outer x y

theorem wellFormed_lc (hT : A.table.Lawful) (x y : Multivector K) : (A.lc x y).WellFormed A :=
  wellFormed_product hT .leftContraction x y

theorem wellFormed_rc (hT : A.table.Lawful) (x y : Multivector K) : (A.rc x y).WellFormed A :=
  wellFormed_product hT .rightContraction x y

/-! ## The two rules -/

/-- The geometric product of an algebra. -/
def geometricRule (A : Clifford K) : BladeRule K where
  factor := A.twist .geometric
  factor_zero_left b := by rw [twist_geometric, Blade.coefficient_zero_left]
  factor_zero_right a := by rw [twist_geometric, Blade.coefficient_zero_right]
  factor_cocycle := twist_mul_twist ProductKind.associates_geometric
  factor_reverse a b := by
    simp only [twist_geometric]
    exact Blade.coefficient_reverse A.metric a b

/-- The outer product of an algebra. -/
def outerRule (A : Clifford K) : BladeRule K where
  factor := A.twist .outer
  factor_zero_left b := by
    rw [twist_outer, if_pos (by simp), Blade.coefficient_zero_left]
  factor_zero_right a := by
    rw [twist_outer, if_pos (by simp), Blade.coefficient_zero_right]
  factor_cocycle := twist_mul_twist ProductKind.associates_outer
  factor_reverse a b := by
    rw [twist_outer, twist_outer, Nat.xor_comm b a, Nat.add_comm (Blade.grade b)]
    by_cases hgrade : Blade.grade (a ^^^ b) = Blade.grade a + Blade.grade b
    · rw [if_pos hgrade, if_pos hgrade]
      exact Blade.coefficient_reverse A.metric a b
    · rw [if_neg hgrade, if_neg hgrade, mul_zero, mul_zero]

theorem geometricRule_factor (a b : Blade) :
    A.geometricRule.factor a b = Blade.coefficient A.metric a b :=
  twist_geometric a b

theorem outerRule_factor (a b : Blade) : A.outerRule.factor a b =
    if Blade.grade (a ^^^ b) = a.grade + b.grade then Blade.coefficient A.metric a b else 0 :=
  twist_outer a b

/-! ## Values -/

/-- A multivector as a sum of canonical blades. -/
noncomputable def value (R : BladeRule K) (A : Clifford K) (x : Multivector K) : BladeSum R :=
  ∑ b ∈ Finset.range (2 ^ A.dimension), .single b (A.coefficient x b)

theorem value_apply (b : Blade) :
    value R A x b = if b < 2 ^ A.dimension then A.coefficient x b else 0 := by
  rw [value, BladeSum.sum_apply]
  simp only [BladeSum.single_apply, Finset.sum_ite_eq', Finset.mem_range]

theorem value_apply_of_lt {b : Nat} (hb : b < 2 ^ A.dimension) :
    value R A x b = A.coefficient x b := by
  rw [value_apply, if_pos hb]

theorem lt_of_value_ne_zero {b : Blade} (h : value R A x b ≠ 0) : b < 2 ^ A.dimension := by
  rw [value_apply] at h
  by_contra hb
  exact h (if_neg hb)

@[simp] theorem value_zero : value R A (Multivector.zero : Multivector K) = 0 := by
  ext b
  have hcoordinate : A.coordinate (Multivector.zero : Multivector K) b = 0 :=
    coordinate_of_not_has (by simp [Multivector.zero])
  rw [value_apply, coefficient, hcoordinate, mul_zero, ite_self, BladeSum.zero_apply]

/-- Multivectors agree if their values are equal. -/
theorem agree_iff : A.Agree x y ↔ value R A x = value R A y := by
  constructor
  · intro h
    ext b
    rw [value_apply, value_apply]
    by_cases hb : b < 2 ^ A.dimension
    · rw [if_pos hb, if_pos hb, coefficient, coefficient, h b hb]
    · rw [if_neg hb, if_neg hb]
  · intro h b hb
    have hcoefficient : A.coefficient x b = A.coefficient y b := by
      rw [← value_apply_of_lt (R := R) hb, ← value_apply_of_lt (R := R) hb, h]
    exact mul_left_cancel₀ (Sign.toScalar_ne_zero _) hcoefficient

/-- Coordinates outside some grades are zero if the value has only these grades. -/
theorem hasGrades_value_iff {p : Nat → Prop} : (value R A x).HasGrades p ↔
    ∀ b < 2 ^ A.dimension, ¬ p b.grade → A.coordinate x b = 0 := by
  constructor
  · intro h b hb hp
    by_contra hne
    refine hp (h b ?_)
    rw [value_apply_of_lt hb, coefficient]
    exact mul_ne_zero (Sign.toScalar_ne_zero _) hne
  · intro h b hb
    have hlt := lt_of_value_ne_zero hb
    by_contra hp
    rw [value_apply_of_lt hlt, coefficient, h b hlt hp, mul_zero] at hb
    exact hb rfl

section Lawful

variable (hT : A.table.Lawful)
include hT

theorem value_scalar (s : K) : value R A (.scalar s) = s • 1 := by
  ext b
  rw [value_apply, coefficient, coordinate_scalar hT, BladeSum.smul_apply, BladeSum.one_apply]
  by_cases hb : b = 0
  · rw [if_pos hb, if_pos hb, hb, if_pos (Nat.two_pow_pos _), hT.signOf_zero]
    simp
  · rw [if_neg hb, if_neg hb, mul_zero, mul_zero, ite_self]

/-- Reduced multivectors of equal value are equal. -/
theorem Reduced.ext_value (hrx : A.Reduced x) (hry : A.Reduced y) (hx : x.WellFormed A)
    (hy : y.WellFormed A) (h : value R A x = value R A y) : x = y := by
  refine hrx.ext hT hry hx hy fun r hr => entry_eq_of_coefficient hT hx hy (fun b hb => ?_) hr
  rw [← value_apply_of_lt (R := R) hb, ← value_apply_of_lt (R := R) hb, h]

theorem reduced_gp [IsStrictOrderedRing K] (x y : Multivector K) : A.Reduced (A.gp x y) :=
  reduced_product hT .geometric x y

/-- Zero stores no group. -/
theorem reduced_zero : A.Reduced (.zero : Multivector K) := by
  intro g
  have hhas : (Multivector.zero : Multivector K).grades.has g = false := GradeSet.has_zero g
  rw [hhas]
  constructor
  · intro h
    exact absurd h Bool.false_ne_true
  · rintro ⟨r, hr, -, hne⟩
    exact absurd (entry_of_not_has hT Multivector.wellFormed_zero hr (GradeSet.has_zero _)) hne

/-- A reduced multivector without a value is zero. -/
theorem Reduced.eq_zero (hrx : A.Reduced x) (hx : x.WellFormed A) (h : value R A x = 0) :
    x = .zero :=
  hrx.ext_value hT (reduced_zero hT) hx Multivector.wellFormed_zero (h.trans value_zero.symm)

/-- A scalar that is not zero stores its grade for a reason. -/
theorem reduced_scalar {s : K} (hs : s ≠ 0) : A.Reduced (.scalar s) := by
  intro g
  have hscalar : ∀ r < 2 ^ A.table.dimension,
      A.entry (.scalar s) r ≠ 0 ↔ A.table.blade r = 0 := by
    intro r hr
    rw [entry_eq_coordinate hT (Multivector.wellFormed_scalar hT s) hr, coordinate_scalar hT]
    by_cases hb : A.table.blade r = 0
    · simp [hb, hs]
    · simp [hb]
  have hhas : (Multivector.scalar s).grades.has g = true ↔ g = 0 := by
    simp [Multivector.scalar]
  have hzero : (0 : Nat) < 2 ^ A.table.dimension := Nat.two_pow_pos _
  rw [hhas]
  constructor
  · rintro rfl
    refine ⟨A.table.index 0, hT.index_lt 0 hzero, ?_, ?_⟩
    · rw [GradeTable.gradeOf, hT.blade_index 0 hzero, Blade.grade_zero]
    · rw [hscalar _ (hT.index_lt 0 hzero), hT.blade_index 0 hzero]
  · rintro ⟨r, hr, hgrade, hne⟩
    rw [hscalar r hr] at hne
    rw [← hgrade, GradeTable.gradeOf, hne, Blade.grade_zero]

variable [IsStrictOrderedRing K]

/-- The value of a product is the convolution of the values with its twist. -/
theorem value_product (kind : ProductKind) (hx : x.WellFormed A) (hy : y.WellFormed A) :
    value R A (A.product kind x y) =
      BladeSum.convolve (A.twist kind) (value R A x) (value R A y) := by
  ext d
  have hrange : ∀ b, value R A x b ≠ 0 → b ∈ Finset.range (2 ^ A.dimension) := fun b hb =>
    Finset.mem_range.mpr (lt_of_value_ne_zero hb)
  rw [BladeSum.convolve_apply hrange]
  by_cases hd : d < 2 ^ A.dimension
  · rw [value_apply_of_lt hd, coefficient_product hT hx hy hd]
    refine Finset.sum_congr rfl fun a ha => ?_
    have ha := Finset.mem_range.mp ha
    rw [value_apply_of_lt ha, value_apply_of_lt (Nat.xor_lt_two_pow ha hd)]
  · -- beyond the dimension there is no blade to complete `a` to `d`
    rw [value_apply, if_neg hd, Finset.sum_eq_zero]
    intro a ha
    have ha := Finset.mem_range.mp ha
    by_cases hb : a ^^^ d < 2 ^ A.dimension
    · have hlt := Nat.xor_lt_two_pow ha hb
      rw [Nat.xor_xor_cancel_left] at hlt
      exact absurd hlt hd
    · rw [value_apply (b := a ^^^ d), if_neg hb, mul_zero]

theorem value_gp (hx : x.WellFormed A) (hy : y.WellFormed A) :
    value A.geometricRule A (A.gp x y) = value A.geometricRule A x * value A.geometricRule A y :=
  value_product hT .geometric hx hy

theorem value_op (hx : x.WellFormed A) (hy : y.WellFormed A) :
    value A.outerRule A (A.op x y) = value A.outerRule A x * value A.outerRule A y :=
  value_product hT .outer hx hy

omit hT [IsStrictOrderedRing K] in
theorem value_signGrades (hx : x.WellFormed A) (σ : Nat → Sign) :
    value R A (A.signGrades σ x) = .signed σ (value R A x) := by
  ext b
  rw [BladeSum.signed_apply, value_apply, value_apply]
  by_cases hb : b < 2 ^ A.dimension
  · have hcoordinate : A.coordinate (A.signGrades σ x) b =
        A.coordinate x b * (σ b.grade).toScalar :=
      coordinate_mapGroups hx (f := fun g s => s * (σ g).toScalar) (fun _ => zero_mul _) b
    rw [if_pos hb, if_pos hb, coefficient, coefficient, hcoordinate]
    ring
  · rw [if_neg hb, if_neg hb, mul_zero]

omit hT [IsStrictOrderedRing K] in
theorem value_reverse (hx : x.WellFormed A) :
    value R A (A.reverse x) = (value R A x).reverse :=
  value_signGrades hx Blade.reverseSign

omit [IsStrictOrderedRing K] in
theorem value_add (hx : x.WellFormed A) (hy : y.WellFormed A) :
    value R A (A.add x y) = value R A x + value R A y := by
  ext b
  rw [BladeSum.add_apply, value_apply, value_apply, value_apply]
  by_cases hb : b < 2 ^ A.dimension
  · rw [if_pos hb, if_pos hb, if_pos hb, coefficient, coefficient, coefficient,
      coordinate_eq_entry hT (wellFormed_add hx hy) hb, coordinate_eq_entry hT hx hb,
      coordinate_eq_entry hT hy hb, entry_add hT hx hy (hT.index_lt b hb), mul_add]
  · rw [if_neg hb, if_neg hb, if_neg hb, add_zero]

omit [IsStrictOrderedRing K] in
theorem value_subtract (hx : x.WellFormed A) (hy : y.WellFormed A) :
    value R A (A.subtract x y) = value R A x - value R A y := by
  ext b
  rw [BladeSum.sub_apply, value_apply, value_apply, value_apply]
  by_cases hb : b < 2 ^ A.dimension
  · rw [if_pos hb, if_pos hb, if_pos hb, coefficient, coefficient, coefficient,
      coordinate_eq_entry hT (wellFormed_subtract hx hy) hb, coordinate_eq_entry hT hx hb,
      coordinate_eq_entry hT hy hb, entry_subtract hT hx hy (hT.index_lt b hb), mul_sub]
  · rw [if_neg hb, if_neg hb, if_neg hb, sub_zero]

theorem coordinate_scale (hx : x.WellFormed A) (s : K) {b : Nat} (hb : b < 2 ^ A.dimension) :
    A.coordinate (A.scale x s) b = A.coordinate x b * s := by
  rw [coordinate_eq_entry hT (wellFormed_scale hT hx s) hb, entry_scale hT hx s (hT.index_lt b hb),
    ← coordinate_eq_entry hT hx hb]

theorem value_scale (hx : x.WellFormed A) (s : K) :
    value R A (A.scale x s) = s • value R A x := by
  ext b
  rw [BladeSum.smul_apply, value_apply, value_apply]
  by_cases hb : b < 2 ^ A.dimension
  · rw [if_pos hb, if_pos hb, coefficient, coefficient, coordinate_scale hT hx s hb]
    ring
  · rw [if_neg hb, if_neg hb, mul_zero]

/-- The scalar product is what the scalar blade gets. -/
theorem sp_eq (hx : x.WellFormed A) (hy : y.WellFormed A) :
    A.sp x y = BladeSum.convolve (A.twist .scalar) (value R A x) (value R A y) 0 := by
  rw [← value_product hT .scalar hx hy, value_apply_of_lt (Nat.two_pow_pos _), coefficient,
    hT.signOf_zero, Sign.toScalar_plus, one_mul, coordinate_zero hT, sp]

/-- The squared norm is the scalar part of the product with the reverse. -/
theorem norm2_eq (hx : x.WellFormed A) : A.norm2 x =
    (value A.geometricRule A x * (value A.geometricRule A x).reverse) 0 := by
  have hrange : ∀ b, value A.geometricRule A x b ≠ 0 → b ∈ Finset.range (2 ^ A.dimension) :=
    fun b hb => Finset.mem_range.mpr (lt_of_value_ne_zero hb)
  have hreverse : (A.reverse x).WellFormed A := wellFormed_signGrades hx Blade.reverseSign
  rw [norm2, sp_eq hT hx hreverse, value_reverse hx, BladeSum.convolve_apply hrange,
    BladeSum.mul_apply hrange]
  refine Finset.sum_congr rfl fun a _ => ?_
  -- at equal blades the scalar product keeps what the geometric product gives
  have htwist : A.twist .scalar a a = A.geometricRule.factor a a := by
    rw [geometricRule_factor, twist, Nat.xor_self, Blade.grade_zero]
    exact if_pos rfl
  rw [Nat.xor_zero, htwist]

theorem norm2_scale (hx : x.WellFormed A) (s : K) :
    A.norm2 (A.scale x s) = s * s * A.norm2 x := by
  rw [norm2_eq hT (wellFormed_scale hT hx s), norm2_eq hT hx, value_scale hT hx, map_smul,
    smul_mul_smul_comm, BladeSum.smul_apply]

omit hT [IsStrictOrderedRing K] in
theorem value_versorInverse (hv : v.WellFormed A) : value R A (A.versorInverse v) =
    (A.norm2 v)⁻¹ • (value R A v).reverse := by
  ext b
  rw [BladeSum.smul_apply, BladeSum.reverse_apply, value_apply, value_apply]
  by_cases hb : b < 2 ^ A.dimension
  · have hcoordinate : A.coordinate (A.versorInverse v) b =
        A.coordinate v b / ((Blade.reverseSign b.grade).toScalar * A.norm2 v) :=
      coordinate_mapGroups hv
        (f := fun g s => s / ((Blade.reverseSign g).toScalar * A.norm2 v)) (fun _ => zero_div _) b
    -- a sign is its own inverse
    have hinv : ((Blade.reverseSign b.grade).toScalar : K)⁻¹ =
        (Blade.reverseSign b.grade).toScalar :=
      inv_eq_of_mul_eq_one_left (Sign.toScalar_mul_self _)
    rw [if_pos hb, if_pos hb, coefficient, coefficient, hcoordinate, div_eq_mul_inv, mul_inv,
      hinv]
    ring
  · rw [if_neg hb, if_neg hb, mul_zero, mul_zero]

end Lawful

end Clifford

end GeometricAlgebra
