/-
  GeometricAlgebra.Proofs.Multivector.Duality

  Duality in exact arithmetic.  The tables of the dual and the undual move every blade to its
  complement; what they compute is the contraction onto the pseudoscalar or onto its inverse.

    * `Clifford.entry_permute`: what a table of images moves, entry by entry.
    * `Clifford.value_complement`: a table of complements multiplies by the pseudoscalar.
    * `Clifford.IsPseudoscalar`: the pseudoscalar, with its stored orientation.
    * `Clifford.undual_eq_lc`, `Clifford.dual_eq_lc`: the tables and the contraction.
    * `Clifford.duality_of_ofConfig`: dual and undual for every accepted algebra.
-/

import Mathlib
import GeometricAlgebra.Multivector.Dual
import GeometricAlgebra.Proofs.Multivector.Contraction

namespace GeometricAlgebra

/-! ## The blade of all vectors -/

namespace Blade

theorem full_eq (n : Nat) : full n = 2 ^ n - 1 := by rw [full, Nat.one_shiftLeft]

theorem full_lt (n : Nat) : full n < 2 ^ n := by
  rw [full_eq]
  exact Nat.sub_lt (Nat.two_pow_pos n) Nat.one_pos

theorem and_full {n a : Nat} (ha : a < 2 ^ n) : a &&& full n = a := by
  rw [full_eq, Nat.and_two_pow_sub_one_of_lt_two_pow ha]

theorem vectors_full (n : Nat) : vectors (full n) = List.range n := by
  rw [vectors_eq_filter (full_lt n), List.filter_eq_self]
  intro i hi
  rw [full_eq, Nat.testBit_two_pow_sub_one]
  exact decide_eq_true (List.mem_range.mp hi)

theorem grade_full (n : Nat) : grade (full n) = n := by
  rw [← length_vectors, vectors_full, List.length_range]

/-- A blade and its complement have all vectors between them. -/
theorem grade_xor_full {n a : Nat} (ha : a < 2 ^ n) : grade (a ^^^ full n) + grade a = n := by
  have h := grade_xor a (full n)
  rw [and_full ha, grade_full] at h
  omega

/-- The blade of all vectors times itself. -/
theorem coefficient_full {K : Type} [Field K] [LinearOrder K] (metric : Array K) :
    coefficient metric (full metric.size) (full metric.size) =
      (reverseSign metric.size).toScalar * metric.toList.prod := by
  have hsquares : (List.range metric.size).map (square metric) = metric.toList := by
    apply List.ext_getElem
    · simp
    · intro i hi hi'
      rw [Array.length_toList] at hi'
      simp [square, Array.getD_eq_getD_getElem?, hi']
  rw [coefficient_eq, reorderingSign_self, grade_full, metricFactor, Nat.and_self, vectors_full,
    hsquares]

end Blade

/-! ## Moved coordinates -/

/-- What several writes leave at a place: the value of the writes to it, if they agree, or what was
    there before. -/
theorem Coordinates.getD_foldl_write {α β : Type} [Zero α] {items : List β} (key : β → Nat)
    (val : β → α) {r : Nat} {w : α} (hwrite : ∀ p ∈ items, key p = r → val p = w)
    {d : Coordinates α} (hr : r < d.size) (hstart : (∀ p ∈ items, key p ≠ r) → d.getD r 0 = w) :
    (items.foldl (fun d p => d.setIfInBounds (key p) (val p)) d).getD r 0 = w := by
  induction items generalizing d with
  | nil => exact hstart (by simp)
  | cons p ps ih =>
    rw [List.forall_mem_cons] at hwrite
    rw [List.foldl_cons]
    apply ih hwrite.2 (by rwa [Array.size_setIfInBounds])
    intro hrest
    by_cases hp : key p = r
    · simp [Array.getD_eq_getD_getElem?, hp, hr, hwrite.1 hp]
    · rw [← hstart (List.forall_mem_cons.mpr ⟨hp, hrest⟩)]
      simp [Array.getD_eq_getD_getElem?, hp]

namespace Clifford

variable {K : Type} [Field K] [LinearOrder K] {A : Clifford K} {x y I : Multivector K}

/-- The pseudoscalar with coefficient one: its coordinate is the sign of its stored orientation,
    and there is no other. -/
structure IsPseudoscalar (A : Clifford K) (I : Multivector K) : Prop where
  wellFormed : I.WellFormed A
  coordinate_eq : ∀ b < 2 ^ A.dimension, A.coordinate I b =
    if b = A.pseudoscalar then (A.table.signOf b).toScalar else 0

theorem IsPseudoscalar.value_eq (hI : A.IsPseudoscalar I) {R : BladeRule K} :
    value R A I = .single A.pseudoscalar 1 := by
  ext b
  rw [value_apply, BladeSum.single_apply]
  by_cases hb : b < 2 ^ A.dimension
  · rw [if_pos hb, coefficient, hI.coordinate_eq b hb]
    by_cases hfull : b = A.pseudoscalar
    · rw [if_pos hfull, if_pos hfull.symm, Sign.toScalar_mul_self]
    · rw [if_neg hfull, if_neg (Ne.symm hfull), mul_zero]
  · rw [if_neg hb, if_neg]
    rintro rfl
    exact hb (Blade.full_lt A.dimension)

section Lawful

variable (hT : A.table.Lawful)
include hT

theorem wellFormed_dual (x : Multivector K) : (A.dual x).WellFormed A :=
  wellFormed_permute hT A.dualImage x

theorem wellFormed_undual (x : Multivector K) : (A.undual x).WellFormed A :=
  wellFormed_permute hT A.undualImage x

variable [IsStrictOrderedRing K]

/-- Every entry moves to the image of its place, times the factor of the image. -/
theorem entry_permute {image : Nat → Nat × K} (hx : x.WellFormed A) {i : Nat}
    (hi : i < 2 ^ A.table.dimension) (hlt : (image i).1 < 2 ^ A.table.dimension)
    (hinj : ∀ j < 2 ^ A.table.dimension, (image j).1 = (image i).1 → j = i) :
    A.entry (A.permute image x) (image i).1 = (image i).2 * A.entry x i := by
  rw [permute, entry_compress hT (size_moved image x) hlt]
  apply Coordinates.getD_foldl_write (fun p : K × Nat => (image p.2).1)
    (fun p : K × Nat => (image p.2).2 * p.1)
  · rintro ⟨v, j⟩ hmem hkey
    obtain ⟨hj, -, rfl⟩ := (mem_stored_iff hT hx).mp hmem
    rw [entry_eq_coordinate hT hx hi, ← hinj j hj hkey]
  · rw [size_denseZeros, hT.denseSize_eq]
    exact hlt
  · intro hnone
    have hstored : x.grades.has (A.table.gradeOf i) = false := by
      by_contra hs
      exact hnone (A.coordinate x (A.table.blade i), i)
        ((mem_stored_iff hT hx).mpr ⟨hi, by simpa using hs, rfl⟩) rfl
    rw [denseZeros, Coordinates.getD_zeros, entry_of_not_has hT hx hi hstored, mul_zero]

theorem reduced_permute (image : Nat → Nat × K) (x : Multivector K) :
    A.Reduced (A.permute image x) :=
  reduced_compress hT (size_moved image x)

omit [IsStrictOrderedRing K] in
/-- The image of a stored blade, in terms of the canonical ones. -/
theorem complement_index (scale : K → K) {a : Nat} (ha : a < 2 ^ A.table.dimension) :
    A.complement scale (A.table.index a) = (A.table.index (a ^^^ A.pseudoscalar),
      scale (Blade.coefficient A.metric a A.pseudoscalar) *
        (A.table.signOf a * A.table.signOf (a ^^^ A.pseudoscalar)).toScalar) := by
  rw [GradeTable.signOf, GradeTable.signOf]
  conv_rhs => rw [← hT.blade_index a ha, hT.index_blade _ (hT.index_lt a ha)]
  rfl

/-- A coefficient moves to the complement of its blade; the stored orientations cancel. -/
theorem coefficient_complement (scale : K → K) (hx : x.WellFormed A) {a : Nat}
    (ha : a < 2 ^ A.table.dimension) :
    A.coefficient (A.permute (A.complement scale) x) (a ^^^ A.pseudoscalar) =
      scale (Blade.coefficient A.metric a A.pseudoscalar) * A.coefficient x a := by
  have hfull : A.pseudoscalar < 2 ^ A.table.dimension := Blade.full_lt A.dimension
  have hb := Nat.xor_lt_two_pow ha hfull
  have himage : (A.complement scale (A.table.index a)).1 =
      A.table.index (a ^^^ A.pseudoscalar) := by
    rw [complement_index hT scale ha]
  -- blades with one complement are equal
  have hinj : ∀ j < 2 ^ A.table.dimension, (A.complement scale j).1 =
      (A.complement scale (A.table.index a)).1 → j = A.table.index a := by
    intro j hj h
    have hj' := hT.blade_lt j hj
    rw [himage, ← hT.index_blade j hj, complement_index hT scale hj'] at h
    have hblade := congrArg A.table.blade h
    rw [hT.blade_index _ (Nat.xor_lt_two_pow hj' hfull), hT.blade_index _ hb] at hblade
    rw [← hT.index_blade j hj, Nat.xor_left_inj.mp hblade]
  have hentry := entry_permute hT hx (hT.index_lt a ha) (himage ▸ hT.index_lt _ hb) hinj
  rw [himage, entry_index hT (wellFormed_permute hT _ x) hb, entry_index hT hx ha,
    complement_index hT scale ha, Sign.toScalar_mul] at hentry
  -- the orientation of the image enters on both sides, that of `a` twice on one
  have hsa : ((A.table.signOf a).toScalar * (A.table.signOf a).toScalar : K) = 1 :=
    Sign.toScalar_mul_self _
  apply mul_left_cancel₀ (Sign.toScalar_ne_zero (A.table.signOf (a ^^^ A.pseudoscalar)))
  rw [hentry]
  generalize ((A.table.signOf (a ^^^ A.pseudoscalar)).toScalar : K) = sb
  linear_combination (scale (Blade.coefficient A.metric a A.pseudoscalar) * sb *
    A.coefficient x a) * hsa

/-- The tables of complements multiply by the pseudoscalar. -/
theorem value_complement (scale : K → K) {s : K} (hscale : ∀ t, scale t = t * s)
    (hx : x.WellFormed A) : value A.geometricRule A (A.permute (A.complement scale) x) =
      s • (value A.geometricRule A x * .single A.pseudoscalar 1) := by
  have hfull : A.pseudoscalar < 2 ^ A.table.dimension := Blade.full_lt A.dimension
  ext b
  rw [BladeSum.smul_apply, BladeSum.mul_def, BladeSum.convolve_apply_single, geometricRule_factor]
  by_cases hb : b < 2 ^ A.dimension
  · have ha := Nat.xor_lt_two_pow hfull hb
    have hcomplement := coefficient_complement hT scale hx ha
    rw [Nat.xor_comm A.pseudoscalar b, Nat.xor_xor_cancel_right] at hcomplement
    rw [value_apply_of_lt hb, value_apply_of_lt ha, Nat.xor_comm A.pseudoscalar b, hcomplement,
      hscale]
    ring
  · have ha : ¬ A.pseudoscalar ^^^ b < 2 ^ A.dimension := by
      intro ha
      have hlt := Nat.xor_lt_two_pow hfull ha
      rw [Nat.xor_xor_cancel_left] at hlt
      exact hb hlt
    rw [value_apply, if_neg hb, value_apply, if_neg ha, mul_zero, zero_mul, mul_zero]

/-! ## Contraction onto the pseudoscalar -/

omit [IsStrictOrderedRing K] hT in
theorem inverseScale_eq (A : Clifford K) : A.inverseScale =
    (Blade.reverseSign A.dimension).toScalar * A.metric.toList.prod⁻¹ := by
  have hprod : Scalar.product A.metric.toList = A.metric.toList.prod :=
    List.prod_eq_foldl.symm
  rw [inverseScale, hprod, div_eq_mul_inv]

/-- Every blade lies in the pseudoscalar, so contracting onto it is multiplying by it. -/
theorem value_lc_pseudoscalar {s : K} (hx : x.WellFormed A) (hI : I.WellFormed A)
    (hvalue : value A.geometricRule A I = .single A.pseudoscalar s) :
    value A.geometricRule A (A.lc x I) =
      value A.geometricRule A x * .single A.pseudoscalar s := by
  rw [lc, value_product hT _ hx hI, hvalue, BladeSum.mul_def]
  apply BladeSum.convolve_congr
  intro a b ha hb
  rw [BladeSum.single_apply] at hb
  obtain rfl : A.pseudoscalar = b := by
    by_contra hne
    exact hb (if_neg hne)
  have hgrade := Blade.grade_xor_full (lt_of_value_ne_zero ha)
  have haccepts : ProductKind.leftContraction.accepts (Blade.grade a)
      (Blade.grade A.pseudoscalar) (Blade.grade (a ^^^ A.pseudoscalar)) = true := by
    rw [ProductKind.accepts, beq_iff_eq, pseudoscalar, Blade.grade_full, hgrade]
  rw [geometricRule_factor, twist, if_pos haccepts]

theorem value_undual (hx : x.WellFormed A) : value A.geometricRule A (A.undual x) =
    value A.geometricRule A x * .single A.pseudoscalar 1 := by
  have h := value_complement hT id (s := 1) (fun t => (mul_one t).symm) hx
  rwa [one_smul] at h

theorem value_dual (hx : x.WellFormed A) : value A.geometricRule A (A.dual x) =
    value A.geometricRule A x * .single A.pseudoscalar A.inverseScale := by
  have h := value_complement hT (· * A.inverseScale) (fun _ => rfl) hx
  rwa [← mul_smul_comm, BladeSum.smul_single, mul_one] at h

/-- The undual of one is the pseudoscalar. -/
theorem isPseudoscalar_undual_one : A.IsPseudoscalar (A.undual (.scalar 1)) where
  wellFormed := wellFormed_undual hT _
  coordinate_eq b hb := by
    have hvalue := value_undual hT (Multivector.wellFormed_scalar hT 1)
    rw [value_scalar hT, one_smul, one_mul] at hvalue
    have hb' := value_apply_of_lt (R := A.geometricRule) (x := A.undual (.scalar 1)) hb
    rw [hvalue, BladeSum.single_apply] at hb'
    rw [coordinate_eq_coefficient, ← hb', mul_ite, mul_one, mul_zero]
    exact if_congr eq_comm rfl rfl

theorem undual_eq_lc (hx : x.WellFormed A) (hI : A.IsPseudoscalar I) : A.undual x = A.lc x I := by
  have hundual : A.Reduced (A.undual x) := reduced_permute hT _ x
  apply hundual.ext_value (R := A.geometricRule) hT (reduced_product hT _ x I)
    (wellFormed_undual hT x) (wellFormed_lc hT x I)
  rw [value_undual hT hx]
  exact (value_lc_pseudoscalar hT hx hI.wellFormed hI.value_eq).symm

section Metric

variable (hmetric : A.metric.size = A.dimension)
include hmetric

/-- The squared norm of the pseudoscalar is the product of the squares of the vectors. -/
theorem IsPseudoscalar.norm2_eq (hI : A.IsPseudoscalar I) :
    A.norm2 I = A.metric.toList.prod := by
  have hsquare := Blade.coefficient_full A.metric
  rw [hmetric] at hsquare
  rw [Clifford.norm2_eq hT hI.wellFormed, hI.value_eq, BladeSum.reverse_single,
    BladeSum.single_mul_single, Nat.xor_self, BladeSum.single_apply, if_pos rfl,
    geometricRule_factor, pseudoscalar, hsquare, Blade.grade_full, one_mul, mul_one, ← mul_assoc,
    Sign.toScalar_mul_self, one_mul]

theorem IsPseudoscalar.value_versorInverse (hI : A.IsPseudoscalar I) :
    value A.geometricRule A (A.versorInverse I) = .single A.pseudoscalar A.inverseScale := by
  rw [Clifford.value_versorInverse hI.wellFormed, hI.norm2_eq hT hmetric, hI.value_eq,
    BladeSum.reverse_single, BladeSum.smul_single, inverseScale_eq, pseudoscalar, Blade.grade_full,
    mul_one, mul_comm]

theorem dual_eq_lc (hx : x.WellFormed A) (hI : A.IsPseudoscalar I) :
    A.dual x = A.lc x (A.versorInverse I) := by
  have hinverse := hI.value_versorInverse hT hmetric
  have hdual : A.Reduced (A.dual x) := reduced_permute hT _ x
  apply hdual.ext_value (R := A.geometricRule) hT (reduced_product hT _ x (A.versorInverse I))
    (wellFormed_dual hT x) (wellFormed_lc hT x (A.versorInverse I))
  rw [value_dual hT hx]
  exact (value_lc_pseudoscalar hT hx (wellFormed_versorInverse hI.wellFormed) hinverse).symm

omit hT [IsStrictOrderedRing K] in
/-- The factor of the dual undoes the square of the pseudoscalar. -/
theorem inverseScale_mul_coefficient (hne : ∀ m ∈ A.metric, m ≠ 0) :
    A.inverseScale * Blade.coefficient A.metric A.pseudoscalar A.pseudoscalar = 1 := by
  have hsquare := Blade.coefficient_full A.metric
  rw [hmetric] at hsquare
  have hprod : A.metric.toList.prod ≠ 0 := by
    rw [Ne, List.prod_eq_zero_iff]
    exact fun h => hne 0 (Array.mem_toList_iff.mp h) rfl
  rw [inverseScale_eq, pseudoscalar, hsquare, mul_mul_mul_comm, Sign.toScalar_mul_self, one_mul,
    inv_mul_cancel₀ hprod]

theorem agree_undual_dual (hne : ∀ m ∈ A.metric, m ≠ 0) (hx : x.WellFormed A) :
    A.Agree (A.undual (A.dual x)) x := by
  have hcancel := inverseScale_mul_coefficient hmetric hne
  rw [agree_iff (R := A.geometricRule), value_undual hT (wellFormed_dual hT x), value_dual hT hx,
    mul_assoc, BladeSum.single_mul_single, Nat.xor_self, geometricRule_factor, mul_one, hcancel,
    ← BladeSum.one_def, mul_one]

theorem agree_dual_undual (hne : ∀ m ∈ A.metric, m ≠ 0) (hx : x.WellFormed A) :
    A.Agree (A.dual (A.undual x)) x := by
  have hcancel := inverseScale_mul_coefficient hmetric hne
  rw [agree_iff (R := A.geometricRule), value_dual hT (wellFormed_undual hT x),
    value_undual hT hx, mul_assoc, BladeSum.single_mul_single, Nat.xor_self, geometricRule_factor,
    one_mul, hcancel, ← BladeSum.one_def, mul_one]

/-- The dual of an outer product contracts the dual of the second factor. -/
theorem dual_op (hx : x.WellFormed A) (hy : y.WellFormed A) (hI : A.IsPseudoscalar I) :
    A.dual (A.op x y) = A.lc x (A.dual y) := by
  rw [dual_eq_lc hT hmetric (wellFormed_op hT x y) hI, dual_eq_lc hT hmetric hy hI,
    lc_op hT hx hy (wellFormed_versorInverse hI.wellFormed)]

end Metric

end Lawful

/-- In exact arithmetic, for every accepted algebra and its pseudoscalar: the undual is the left
    contraction onto the pseudoscalar.  Without a zero in the metric the dual is the left
    contraction onto its inverse, each undoes the other, and the dual of an outer product contracts
    the dual of the second factor. -/
theorem duality_of_ofConfig [IsStrictOrderedRing K] {c : Config K} (h : ofConfig c = .ok A)
    (hI : A.IsPseudoscalar I) (hx : x.WellFormed A) (hy : y.WellFormed A) :
    A.undual x = A.lc x I ∧
      ((∀ m ∈ A.metric, m ≠ 0) →
        A.dual x = A.lc x (A.versorInverse I) ∧
          A.Agree (A.undual (A.dual x)) x ∧
          A.Agree (A.dual (A.undual x)) x ∧
          A.Agree (A.dual (A.op x y)) (A.lc x (A.dual y))) := by
  have hT := lawful_of_ofConfig h
  have hmetric := size_metric_of_ofConfig h
  exact ⟨undual_eq_lc hT hx hI, fun hne => ⟨dual_eq_lc hT hmetric hx hI,
    agree_undual_dual hT hmetric hne hx, agree_dual_undual hT hmetric hne hx,
    .of_eq (dual_op hT hmetric hx hy hI)⟩⟩

end Clifford

/-! ## A space with turned blades -/

namespace Config

/-- Three vectors with squares of both signs. -/
def hyperbolicSpace (blades : Option (List (List String))) : Config ℚ where
  name := "space"
  vectors := ["e0", "e1", "e2"]
  metric := some [2, 1, -1]
  blades := blades

/-- Its basis blades in another order; three of them are turned, the pseudoscalar among them. -/
def turnedBlades : List (List String) :=
  [[], ["e1"], ["e0"], ["e2"], ["e0", "e1"], ["e2", "e1"], ["e2", "e0"], ["e1", "e0", "e2"]]

end Config

namespace Clifford

/-- The algebra of the space with turned blades. -/
def turnedSpace : Clifford ℚ where
  config := .hyperbolicSpace (some Config.turnedBlades)
  table := .ofOrder 3 [[], [1], [0], [2], [0, 1], [2, 1], [2, 0], [1, 0, 2]]
  metric := #[2, 1, -1]

theorem ofConfig_turnedSpace :
    ofConfig (.hyperbolicSpace (some Config.turnedBlades)) = .ok turnedSpace :=
  ofConfig_eq_ok_iff.mpr ⟨_, by decide +kernel, rfl⟩

/-- A multivector of several grades and its duals; the pseudoscalar is stored turned. -/
theorem duality_turnedSpace :
    ofConfig (.hyperbolicSpace (some Config.turnedBlades)) = .ok turnedSpace ∧
      let I := turnedSpace.undual (.scalar 1)
      let y := turnedSpace.vector #[1, 2, 1]
      let x := turnedSpace.add y (turnedSpace.gp y (turnedSpace.vector #[0, 1, 3]))
      turnedSpace.IsPseudoscalar I ∧ I = ⟨8, #[-1]⟩ ∧
        turnedSpace.undual x = turnedSpace.lc x I ∧
        (∀ m ∈ turnedSpace.metric, m ≠ 0) ∧
        turnedSpace.dual x = turnedSpace.lc x (turnedSpace.versorInverse I) ∧
        turnedSpace.Agree (turnedSpace.undual (turnedSpace.dual x)) x ∧
        turnedSpace.Agree (turnedSpace.dual (turnedSpace.undual x)) x ∧
        turnedSpace.Agree (turnedSpace.dual (turnedSpace.op x y))
          (turnedSpace.lc x (turnedSpace.dual y)) ∧
        turnedSpace.dual x = ⟨14, #[-5, 3 / 2, 1, -1 / 2, -2, 1 / 2, -1 / 2]⟩ := by
  have hA := ofConfig_turnedSpace
  have hT := lawful_of_ofConfig hA
  have hI := isPseudoscalar_undual_one hT
  have hne : ∀ m ∈ turnedSpace.metric, m ≠ 0 := by decide +kernel
  have hy := wellFormed_vector hT (dimension_pos_of_ofConfig hA) #[1, 2, 1]
  have hx := wellFormed_add hy
    (wellFormed_gp hT (turnedSpace.vector #[1, 2, 1]) (turnedSpace.vector #[0, 1, 3]))
  obtain ⟨hundual, hduality⟩ := duality_of_ofConfig hA hI hx hy
  obtain ⟨hdual, hleft, hright, hop⟩ := hduality hne
  exact ⟨hA, hI, by decide +kernel, hundual, hne, hdual, hleft, hright, hop, by decide +kernel⟩

end Clifford

end GeometricAlgebra
