/-
  GeometricAlgebra.Proofs.Multivector.Logarithm

  The exponential undoes the logarithm of a rotor of a Euclidean plane, in exact arithmetic.  The
  square of a bivector that is a scalar is minus its squared norm, so the logarithm of a rotor is a
  turn: its square is minus that of its angle, and the exponential of a turn is made of the sine and
  the cosine of the angle.

    * `Clifford.value_exp_turn`: the exponential of a turn.
    * `Clifford.IsPlaneRotor.exists_log`: rotors of positive angle.
    * `Clifford.exists_log_of_one`, `exists_log_of_neg_one`: no turn and half a turn.
    * `Clifford.logarithm_of_ofConfig`: all of them, in every accepted algebra.
-/

import GeometricAlgebra.Proofs.Multivector.ClosedForms
import GeometricAlgebra.Proofs.Multivector.ScalarProduct

namespace GeometricAlgebra

/-- What rotors need of the elementary functions: exact square roots, angles of the points of the
    upper half of the unit circle, and the half turn. -/
structure Elementary.RotorLaws (K : Type) [Field K] [LinearOrder K] [Elementary.Functions K] :
    Prop where
  sqrt_nonneg : ∀ t : K, 0 ≤ t → 0 ≤ Elementary.sqrt t
  sq_sqrt : ∀ t : K, 0 ≤ t → Elementary.sqrt t ^ 2 = t
  atan2_pos : ∀ x y : K, 0 < y → x ^ 2 + y ^ 2 = 1 → 0 < Elementary.atan2 y x
  sin_atan2 : ∀ x y : K, 0 < y → x ^ 2 + y ^ 2 = 1 → Elementary.sin (Elementary.atan2 y x) = y
  cos_atan2 : ∀ x y : K, 0 < y → x ^ 2 + y ^ 2 = 1 → Elementary.cos (Elementary.atan2 y x) = x
  pi_pos : 0 < (Elementary.pi : K)
  sin_pi : Elementary.sin (Elementary.pi : K) = 0
  cos_pi : Elementary.cos (Elementary.pi : K) = -1

/-- The squares of the vectors in a list, as those that its blade shares with itself. -/
theorem Blade.metricFactor_ofVectors {K : Type} [Field K] (metric : Array K) {vs : List Nat}
    (h : vs.Nodup) :
    metricFactor metric (ofVectors vs) (ofVectors vs) = (vs.map (square metric)).prod := by
  rw [metricFactor, Nat.and_self, ((perm_vectors_ofVectors h).map _).prod_eq]

namespace Clifford

/-! ## Planes -/

/-- At least two basis vectors have square one. -/
def HasEuclideanPlane {α : Type} [One α] (A : Clifford α) : Prop :=
  ∃ i j : Nat, i < j ∧ A.metric[i]? = some 1 ∧ A.metric[j]? = some 1

/-- The bivector of a multivector. -/
def bivectorPart {α : Type} [Scalar α] (A : Clifford α) (x : Multivector α) : Multivector α :=
  A.extract x (GradeSet.insert 0 2)

variable {K : Type} [Field K] [LinearOrder K] {A : Clifford K} {R : BladeRule K}
  {x r : Multivector K} {s t : K}

/-- A Euclidean plane squares to minus one. -/
theorem coefficient_plane {i j : Nat} (hij : i < j) (hi : A.metric[i]? = some 1)
    (hj : A.metric[j]? = some 1) :
    Blade.coefficient A.metric (Blade.ofVectors [i, j]) (Blade.ofVectors [i, j]) = -1 := by
  have hdistinct : [i, j].Nodup := by simp [hij.ne]
  have hself := Blade.reverseSign_mul_coefficient_self A.metric (Blade.ofVectors [i, j])
  have hsign : ((Blade.reverseSign 2).toScalar : K) = -1 := rfl
  rw [Blade.metricFactor_ofVectors A.metric hdistinct, Blade.grade_ofVectors hdistinct,
    List.length_cons, List.length_singleton, hsign] at hself
  simp only [List.map_cons, List.map_nil, List.prod_cons, List.prod_nil, Blade.square,
    Array.getD_eq_getD_getElem?, hi, hj, Option.getD_some, mul_one] at hself
  linear_combination -hself

section Planes

variable [Elementary.Functions K] (hsize : A.metric.size = A.dimension)
include hsize

theorem mem_filter_metric {i : Nat} :
    i ∈ (List.range A.dimension).filter (fun i => A.metric.getD i 0 == 1) ↔
      A.metric[i]? = some 1 := by
  rw [List.mem_filter, List.mem_range, ← hsize, Array.getD_eq_getD_getElem?]
  by_cases hi : i < A.metric.size
  · simp [hi]
  · simp [hi]

/-- The plane is that of two vectors of square one; without two of them there is none. -/
theorem euclideanPlane_cases :
    (∃ i j : Nat, i < j ∧ A.metric[i]? = some 1 ∧ A.metric[j]? = some 1 ∧
      A.euclideanPlane = .ok (.ofVectors [i, j])) ∨
    (¬ A.HasEuclideanPlane ∧
      A.euclideanPlane = .error (.invalidAlgebra (.noEuclideanPlane A.config.name))) := by
  have hmem := fun i => mem_filter_metric hsize (i := i)
  have hsorted : ((List.range A.dimension).filter fun i => A.metric.getD i 0 == 1).Pairwise
      (· < ·) := List.pairwise_lt_range.filter _
  rw [euclideanPlane]
  generalize (List.range A.dimension).filter (fun i => A.metric.getD i 0 == 1) = vs at hmem hsorted ⊢
  cases vs with
  | nil =>
    refine .inr ⟨?_, rfl⟩
    rintro ⟨i, _, -, hi, -⟩
    exact absurd ((hmem i).mpr hi) List.not_mem_nil
  | cons i vs =>
    cases vs with
    | nil =>
      refine .inr ⟨?_, rfl⟩
      rintro ⟨u, v, huv, hu, hv⟩
      have hui := List.mem_singleton.mp ((hmem u).mpr hu)
      have hvi := List.mem_singleton.mp ((hmem v).mpr hv)
      omega
    | cons j vs =>
      refine .inl ⟨i, j, ?_, (hmem i).mp (by simp), (hmem j).mp (by simp), ?_⟩
      · exact List.rel_of_pairwise_cons hsorted List.mem_cons_self
      · rw [Blade.ofVectors_cons, Blade.ofVectors_singleton]

theorem euclideanPlane_eq_error (h : ¬ A.HasEuclideanPlane) :
    A.euclideanPlane = .error (.invalidAlgebra (.noEuclideanPlane A.config.name)) := by
  obtain ⟨i, j, hij, hi, hj, -⟩ | ⟨-, herror⟩ := euclideanPlane_cases hsize
  · exact absurd ⟨i, j, hij, hi, hj⟩ h
  · exact herror

end Planes

/-! ## Bivectors -/

/-- A scalar and a bivector of a plane in which bivectors have negative squares, of norm one: the
    cosine and the sine of a positive angle. -/
structure IsPlaneRotor (A : Clifford K) (r : Multivector K) : Prop where
  wellFormed : r.WellFormed A
  stores : ∀ g, r.grades.has g = true → g = 0 ∨ g = 2
  -- The square of the bivector is a scalar.
  square : ∃ s, A.Agree (A.gp (A.bivectorPart r) (A.bivectorPart r)) (.scalar s)
  norm2_pos : 0 < A.norm2 (A.bivectorPart r)
  unit : r.scalarPart ^ 2 + A.norm2 (A.bivectorPart r) = 1

theorem wellFormed_bivectorPart (hx : x.WellFormed A) : (A.bivectorPart x).WellFormed A :=
  wellFormed_extract hx _

theorem coordinate_bivectorPart (hx : x.WellFormed A) (b : Nat) :
    A.coordinate (A.bivectorPart x) b = if Blade.grade b = 2 then A.coordinate x b else 0 := by
  rw [bivectorPart, coordinate_extract hx]
  simp [GradeSet.has_insert]

theorem hasGrades_bivectorPart (hx : x.WellFormed A) :
    (value R A (A.bivectorPart x)).HasGrades (· = 2) := by
  rw [hasGrades_value_iff]
  intro b _ hb
  rw [coordinate_bivectorPart hx, if_neg hb]

/-- Reversing a bivector negates it. -/
theorem reverse_of_hasGrades_two {X : BladeSum R} (h : X.HasGrades (· = 2)) : X.reverse = -X := by
  ext b
  by_cases hb : X b = 0
  · rw [BladeSum.reverse_apply, ← neg_one_smul K, BladeSum.smul_apply, hb, mul_zero, mul_zero]
  · rw [BladeSum.reverse_apply, ← neg_one_smul K, BladeSum.smul_apply, h b hb]
    rfl

section Lawful

variable [IsStrictOrderedRing K] (hT : A.table.Lawful)
include hT

/-- The square of a bivector is minus its squared norm, if it is a scalar. -/
theorem norm2_of_agree_gp_self (hx : x.WellFormed A)
    (hgrade : (value A.geometricRule A x).HasGrades (· = 2)) (hs : A.Agree (A.gp x x) (.scalar s)) :
    A.norm2 x = -s := by
  rw [norm2_eq hT hx, reverse_of_hasGrades_two hgrade, mul_neg, value_mul_self_of_agree hT hx hs,
    ← neg_smul, BladeSum.smul_apply, BladeSum.one_apply, if_pos rfl, mul_one]

omit [IsStrictOrderedRing K] in
/-- What stores only scalars and bivectors is their sum. -/
theorem value_eq_bivectorPart_add (hx : x.WellFormed A)
    (hstores : ∀ g, x.grades.has g = true → g = 0 ∨ g = 2) :
    value R A x = value R A (A.bivectorPart x) + x.scalarPart • 1 := by
  ext b
  rw [BladeSum.add_apply, BladeSum.smul_apply, BladeSum.one_apply, value_apply, value_apply]
  by_cases hb : b < 2 ^ A.dimension
  · rw [if_pos hb, if_pos hb, coefficient, coefficient, coordinate_bivectorPart hx]
    by_cases hb0 : b = 0
    · rw [if_pos hb0, hb0, hT.signOf_zero, coordinate_zero hT, Blade.grade_zero]
      simp
    · have hgrade0 : Blade.grade b ≠ 0 := fun h => hb0 (Blade.grade_eq_zero.mp h)
      rw [if_neg hb0, mul_zero, add_zero]
      by_cases hb2 : Blade.grade b = 2
      · rw [if_pos hb2]
      · -- no other grade is stored
        have hstored : x.grades.has (Blade.grade b) = false := by
          rw [← Bool.not_eq_true]
          intro h
          exact (hstores _ h).elim hgrade0 hb2
        rw [if_neg hb2, coordinate_of_not_has hstored]
  · have hb0 : b ≠ 0 := fun h => hb (h ▸ Nat.two_pow_pos _)
    rw [if_neg hb, if_neg hb, if_neg hb0, mul_zero, add_zero]

omit [IsStrictOrderedRing K] in
/-- A written blade is a multiple of its canonical form. -/
theorem value_setCoordinate_zero {b : Nat} (hb : b < 2 ^ A.dimension) (c : K) :
    value R A (A.setCoordinate .zero b (c * (A.table.signOf b).toScalar)) = .single b c := by
  ext d
  rw [value_apply, BladeSum.single_apply]
  by_cases hd : d < 2 ^ A.dimension
  · rw [if_pos hd, coefficient, coordinate_setCoordinate hT Multivector.wellFormed_zero hb hd]
    by_cases hbd : d = b
    · rw [if_pos hbd, if_pos hbd.symm, hbd, mul_left_comm, Sign.toScalar_mul_self, mul_one]
    · rw [if_neg hbd, if_neg (Ne.symm hbd), coordinate_of_not_has (by simp [Multivector.zero]),
        mul_zero]
  · rw [if_neg hd, if_neg fun h : b = d => hd (h ▸ hb)]

/-- A multiple of a Euclidean plane has a negative square. -/
theorem agree_gp_self_of_plane {i j : Nat} (hij : i < j) (hi : A.metric[i]? = some 1)
    (hj : A.metric[j]? = some 1) (hx : x.WellFormed A)
    (hvalue : value A.geometricRule A x = .single (Blade.ofVectors [i, j]) t) :
    A.Agree (A.gp x x) (.scalar (-(t * t))) := by
  rw [agree_iff (R := A.geometricRule), value_gp hT hx hx, hvalue, BladeSum.single_mul_single,
    geometricRule_factor, coefficient_plane hij hi hj, Nat.xor_self, value_scalar hT,
    BladeSum.one_def, BladeSum.smul_single, mul_neg_one, mul_one]

/-! ## Turns -/

section Turns

variable [Elementary.Functions K] (hlaws : Elementary.RotorLaws K)
include hlaws

omit hT in
theorem sqrt_mul_self (ht : 0 < t) : Elementary.sqrt (t * t) = t := by
  have hsq := hlaws.sq_sqrt (t * t) (mul_self_nonneg t)
  rw [← sq] at hsq ⊢
  exact (sq_eq_sq₀ (hlaws.sqrt_nonneg _ (sq_nonneg t)) ht.le).mp hsq

/-- The exponential of a turn by the angle `t`. -/
theorem value_exp_turn (hx : x.WellFormed A) (ht : 0 < t)
    (hs : A.Agree (A.gp x x) (.scalar (-(t * t)))) (order : Nat) : value R A (A.exp x order) =
      (Elementary.sin t / t) • value R A x + Elementary.cos t • 1 := by
  have hroot : SquareRoot.of (-(t * t)) = .circular t := by
    rw [SquareRoot.of, if_pos (neg_neg_of_pos (mul_pos ht ht)), neg_neg, sqrt_mul_self hlaws ht]
  rw [value_exp_of_square (scalarSquare?_of_agree hT hs) order hT hx, hroot]
  rfl

/-- The logarithm of a rotor is a turn by its angle, and the exponential takes it back. -/
theorem IsPlaneRotor.exists_log (hr : A.IsPlaneRotor r) (order : Nat) :
    ∃ l, A.log r = .ok l ∧ A.Agree (A.exp l order) r := by
  obtain ⟨hwf, hstores, ⟨s, hs⟩, hpos, hunit⟩ := hr
  have hB := wellFormed_bivectorPart hwf
  have hnorm : A.norm2 (A.bivectorPart r) = -s :=
    norm2_of_agree_gp_self hT hB (hasGrades_bivectorPart hwf) hs
  have hsquare := value_mul_self_of_agree hT hB hs
  have hlog : A.log r = .ok (A.scale (A.bivectorPart r)
      (Elementary.atan2 (Elementary.sqrt (A.norm2 (A.bivectorPart r))) r.scalarPart /
        Elementary.sqrt (A.norm2 (A.bivectorPart r)))) := if_neg hpos.not_ge
  -- the sine `a` is the norm of the bivector, and `t` is the angle
  have hsq := hlaws.sq_sqrt _ hpos.le
  have hnonneg := hlaws.sqrt_nonneg _ hpos.le
  generalize Elementary.sqrt (A.norm2 (A.bivectorPart r)) = a at hlog hsq hnonneg
  have ha : 0 < a := by
    refine lt_of_le_of_ne hnonneg fun h => ?_
    rw [← h, zero_pow (by decide)] at hsq
    exact hpos.ne hsq
  have hcircle : r.scalarPart ^ 2 + a ^ 2 = 1 := by rw [hsq, hunit]
  have ht := hlaws.atan2_pos _ _ ha hcircle
  have hsin := hlaws.sin_atan2 _ _ ha hcircle
  have hcos := hlaws.cos_atan2 _ _ ha hcircle
  generalize Elementary.atan2 a r.scalarPart = t at hlog ht hsin hcos
  have hturn : A.Agree (A.gp (A.scale (A.bivectorPart r) (t / a))
      (A.scale (A.bivectorPart r) (t / a))) (.scalar (-(t * t))) := by
    have hL := wellFormed_scale hT hB (t / a)
    rw [agree_iff (R := A.geometricRule), value_gp hT hL hL, value_scale hT hB,
      smul_mul_smul_of_square hsquare, value_scalar hT]
    congr 1
    rw [← neg_neg s, ← hnorm, ← hsq]
    field_simp
  refine ⟨_, hlog, ?_⟩
  rw [agree_iff (R := A.geometricRule),
    value_exp_turn hT hlaws (wellFormed_scale hT hB _) ht hturn, value_scale hT hB, hsin, hcos,
    value_eq_bivectorPart_add hT hwf hstores, smul_smul]
  congr 1
  rw [div_mul_div_cancel₀ ht.ne', div_self ha.ne', one_smul]

end Turns

/-! ## No turn and half a turn -/

omit [IsStrictOrderedRing K] in
theorem scalarPart_of_agree (h : A.Agree r (.scalar s)) : r.scalarPart = s := by
  rw [← coordinate_zero hT, h 0 (Nat.two_pow_pos _), coordinate_scalar hT, if_pos rfl]

/-- A scalar has no bivector. -/
theorem norm2_bivectorPart_of_agree (hr : r.WellFormed A) (h : A.Agree r (.scalar s)) :
    A.norm2 (A.bivectorPart r) = 0 := by
  have hzero : value A.geometricRule A (A.bivectorPart r) = 0 := by
    rw [← value_zero, ← agree_iff]
    intro b hb
    rw [coordinate_bivectorPart hr, coordinate_of_not_has (x := .zero) (by simp [Multivector.zero])]
    by_cases hgrade : Blade.grade b = 2
    · have hb0 : b ≠ 0 := fun h0 => by simp [h0] at hgrade
      rw [if_pos hgrade, h b hb, coordinate_scalar hT, if_neg hb0]
    · rw [if_neg hgrade]
  rw [norm2_eq hT (wellFormed_bivectorPart hr), hzero, zero_mul, BladeSum.zero_apply]

section HalfTurns

variable [Elementary.Functions K] (hr : r.WellFormed A)
include hr

/-- The logarithm of one is zero, and the exponential of zero is one. -/
theorem exists_log_of_one (h : A.Agree r (.scalar 1)) (order : Nat) :
    ∃ l, A.log r = .ok l ∧ A.Agree (A.exp l order) r := by
  have hlog : A.log r = .ok .zero := by
    have hcondition : A.norm2 (A.bivectorPart r) ≤ 0 := (norm2_bivectorPart_of_agree hT hr h).le
    refine (if_pos hcondition).trans (if_pos ?_)
    rw [scalarPart_of_agree hT h]
    exact zero_le_one
  have hzero : (Multivector.zero : Multivector K).WellFormed A := Multivector.wellFormed_zero
  have hsquare : A.Agree (A.gp .zero .zero) (.scalar 0) := by
    rw [agree_iff (R := A.geometricRule), value_gp hT hzero hzero, value_zero, value_scalar hT,
      zero_mul, zero_smul]
  refine ⟨_, hlog, ?_⟩
  rw [agree_iff (R := A.geometricRule),
    value_exp_of_square (scalarSquare?_of_agree hT hsquare) order hT hzero, agree_iff.mp h,
    value_zero, value_scalar hT, smul_zero, zero_add, SquareRoot.of, if_neg (lt_irrefl _),
    if_neg (lt_irrefl _)]
  rfl

/-- The logarithm of minus one asks for a plane. -/
theorem log_of_neg_one (h : A.Agree r (.scalar (-1))) : A.log r = A.euclideanPlane >>= fun plane =>
    .ok (A.setCoordinate .zero plane (Elementary.pi * (A.table.signOf plane).toScalar)) := by
  have hcondition : A.norm2 (A.bivectorPart r) ≤ 0 := (norm2_bivectorPart_of_agree hT hr h).le
  refine (if_pos hcondition).trans (if_neg ?_)
  rw [scalarPart_of_agree hT h]
  exact neg_one_lt_zero.not_ge

/-- A half turn squares to minus the square of its angle. -/
theorem exists_log_of_neg_one (hlaws : Elementary.RotorLaws K) (hsize : A.metric.size = A.dimension)
    (hplane : A.HasEuclideanPlane) (h : A.Agree r (.scalar (-1))) (order : Nat) :
    ∃ l, A.log r = .ok l ∧ A.Agree (A.exp l order) r := by
  obtain ⟨i, j, hij, hi, hj, hok⟩ | ⟨hnone, -⟩ := euclideanPlane_cases hsize
  · have hb : Blade.ofVectors [i, j] < 2 ^ A.dimension := euclideanPlane_lt hok
    have hlog := log_of_neg_one hT hr h
    rw [hok] at hlog
    have hwf := wellFormed_setCoordinate Multivector.wellFormed_zero hb
      (Elementary.pi * (A.table.signOf (.ofVectors [i, j])).toScalar)
    have hvalue := value_setCoordinate_zero (R := A.geometricRule) hT hb Elementary.pi
    refine ⟨_, hlog, ?_⟩
    generalize A.setCoordinate .zero (.ofVectors [i, j])
      (Elementary.pi * (A.table.signOf (.ofVectors [i, j])).toScalar) = l at hwf hvalue ⊢
    have hturn := agree_gp_self_of_plane hT hij hi hj hwf hvalue
    rw [agree_iff (R := A.geometricRule), value_exp_turn hT hlaws hwf hlaws.pi_pos hturn,
      hlaws.sin_pi, hlaws.cos_pi, zero_div, zero_smul, zero_add, agree_iff.mp h, value_scalar hT]
  · exact absurd hplane hnone

end HalfTurns

/-! ## Rotors of a plane -/

omit [IsStrictOrderedRing K] in
/-- The bivector of a blade of grade two written beside a scalar. -/
theorem value_bivectorPart_setCoordinate {b : Nat} (hb : b < 2 ^ A.dimension)
    (hgrade : Blade.grade b = 2) (c : K) : value R A (A.bivectorPart
      (A.setCoordinate (.scalar s) b (c * (A.table.signOf b).toScalar))) = .single b c := by
  have hs := Multivector.wellFormed_scalar hT s
  rw [← value_setCoordinate_zero hT hb, ← agree_iff]
  intro d hd
  rw [coordinate_bivectorPart (wellFormed_setCoordinate hs hb _),
    coordinate_setCoordinate hT hs hb hd,
    coordinate_setCoordinate hT Multivector.wellFormed_zero hb hd, coordinate_scalar hT,
    coordinate_of_not_has (x := .zero) (by simp [Multivector.zero])]
  by_cases hdb : d = b
  · rw [if_pos hdb, if_pos hdb, if_pos (hdb ▸ hgrade)]
  · rw [if_neg hdb, if_neg hdb]
    by_cases hd0 : d = 0
    · rw [hd0, Blade.grade_zero]
      rfl
    · rw [if_neg hd0, ite_self]

/-- A cosine and a sine that is not zero make a rotor of a Euclidean plane. -/
theorem isPlaneRotor_setCoordinate (hsize : A.metric.size = A.dimension) {i j : Nat} (hij : i < j)
    (hi : A.metric[i]? = some 1) (hj : A.metric[j]? = some 1) (ht : t ≠ 0)
    (hunit : s ^ 2 + t ^ 2 = 1) : A.IsPlaneRotor (A.setCoordinate (.scalar s) (.ofVectors [i, j])
      (t * (A.table.signOf (.ofVectors [i, j])).toScalar)) := by
  have hdistinct : [i, j].Nodup := by simp [hij.ne]
  have hgrade : Blade.grade (.ofVectors [i, j]) = 2 := Blade.grade_ofVectors hdistinct
  have hb : Blade.ofVectors [i, j] < 2 ^ A.dimension := by
    have hj' := (Array.getElem?_eq_some_iff.mp hj).1
    apply Blade.ofVectors_lt
    simp only [List.mem_cons, List.not_mem_nil, or_false]
    omega
  have hs := Multivector.wellFormed_scalar hT s
  have hvalue := value_bivectorPart_setCoordinate (R := A.geometricRule) (s := s) hT hb hgrade t
  have hwf := wellFormed_setCoordinate hs hb (t * (A.table.signOf (.ofVectors [i, j])).toScalar)
  have hscalar : (A.setCoordinate (.scalar s) (.ofVectors [i, j])
      (t * (A.table.signOf (.ofVectors [i, j])).toScalar)).scalarPart = s := by
    have hne : 0 ≠ Blade.ofVectors [i, j] := fun h => by simp [← h] at hgrade
    rw [← coordinate_zero hT, coordinate_setCoordinate hT hs hb (Nat.two_pow_pos _), if_neg hne,
      coordinate_scalar hT, if_pos rfl]
  have hB := wellFormed_bivectorPart hwf
  have hsquare := agree_gp_self_of_plane hT hij hi hj hB hvalue
  have hnorm := norm2_of_agree_gp_self hT hB (hasGrades_bivectorPart hwf) hsquare
  rw [neg_neg] at hnorm
  refine ⟨hwf, fun g hg => ?_, ⟨_, hsquare⟩, ?_, ?_⟩
  · rw [setCoordinate, has_reserve, hgrade] at hg
    simpa [Multivector.scalar] using hg
  · rw [hnorm]
    exact mul_self_pos.mpr ht
  · rw [hscalar, hnorm, ← sq, hunit]

end Lawful

/-! ## Every accepted algebra -/

/-- In exact arithmetic, in every accepted algebra and for every order: the logarithm of a rotor of a
    Euclidean plane exists, and its exponential is the rotor.  So it is for one, and for minus one if
    two basis vectors have square one; the logarithm of minus one fails otherwise. -/
theorem logarithm_of_ofConfig [IsStrictOrderedRing K] [Elementary.Functions K]
    (hlaws : Elementary.RotorLaws K) {c : Config K} (h : ofConfig c = .ok A) (order : Nat) :
    (∀ r, A.IsPlaneRotor r → ∃ l, A.log r = .ok l ∧ A.Agree (A.exp l order) r) ∧
    (∀ r, r.WellFormed A → A.Agree r (.scalar 1) →
      ∃ l, A.log r = .ok l ∧ A.Agree (A.exp l order) r) ∧
    (∀ r, r.WellFormed A → A.Agree r (.scalar (-1)) →
      (A.HasEuclideanPlane → ∃ l, A.log r = .ok l ∧ A.Agree (A.exp l order) r) ∧
      (¬ A.HasEuclideanPlane →
        A.log r = .error (.invalidAlgebra (.noEuclideanPlane A.config.name)))) := by
  have hT := lawful_of_ofConfig h
  have hsize := size_metric_of_ofConfig h
  refine ⟨fun r hr => hr.exists_log hT hlaws order,
    fun r hr hone => exists_log_of_one hT hr hone order, fun r hr hminus => ⟨?_, ?_⟩⟩
  · exact fun hplane => exists_log_of_neg_one hT hr hlaws hsize hplane hminus order
  · intro hnone
    rw [log_of_neg_one hT hr hminus, euclideanPlane_eq_error hsize hnone]
    rfl

theorem rotorLaws_analyticFunctions : @Elementary.RotorLaws ℝ _ _ analyticFunctions := by
  let _ := analyticFunctions
  have hcircle : ∀ {x y : ℝ}, x ^ 2 + y ^ 2 = 1 → ‖(⟨x, y⟩ : ℂ)‖ = 1 := by
    intro x y h
    rw [Complex.norm_eq_sqrt_sq_add_sq, h, Real.sqrt_one]
  refine ⟨fun t _ => Real.sqrt_nonneg t, fun t ht => Real.sq_sqrt ht, ?_, ?_, ?_, Real.pi_pos,
    Real.sin_pi, Real.cos_pi⟩
  · intro x y hy _
    have hnonneg : 0 ≤ Complex.arg ⟨x, y⟩ := Complex.arg_nonneg_iff.mpr hy.le
    have hne : Complex.arg ⟨x, y⟩ ≠ 0 := fun h => hy.ne' (Complex.arg_eq_zero_iff.mp h).2
    exact lt_of_le_of_ne hnonneg hne.symm
  · intro x y _ h
    exact (Complex.sin_arg _).trans (by rw [hcircle h, div_one])
  · intro x y hy h
    have hne : (⟨x, y⟩ : ℂ) ≠ 0 := fun h0 => hy.ne' (congrArg Complex.im h0)
    exact (Complex.cos_arg hne).trans (by rw [hcircle h, div_one])

/-- Space over the real numbers. -/
noncomputable def realSpace : Clifford ℝ where
  config := Config.e3ga
  table := .ofOrder 3 [[], [0], [1], [2], [0, 1], [1, 2], [2, 0], [0, 1, 2]]
  metric := #[1, 1, 1]

theorem ofConfig_realSpace : ofConfig Config.e3ga = .ok realSpace :=
  ofConfig_eq_ok_iff.mpr ⟨_, by decide +kernel, rfl⟩

/-- A rotor of the plane that is stored turned, a quarter turn, no turn and half a turn in space; and
    half a turn of the line. -/
theorem logarithm_realSpace :
    let _ := analyticFunctions
    let rotor := realSpace.setCoordinate (.scalar (3 / 5)) (.ofVectors [0, 2]) (-(4 / 5))
    let quarter := realSpace.setCoordinate (.scalar 0) (.ofVectors [0, 1]) 1
    Elementary.RotorLaws ℝ ∧ ofConfig Config.e3ga = .ok realSpace ∧
      ofConfig Config.negativeLine = .ok negativeLine ∧
      realSpace.IsPlaneRotor rotor ∧ realSpace.IsPlaneRotor quarter ∧
      (∀ r ∈ [rotor, quarter, .scalar 1, .scalar (-1)],
        ∃ l, realSpace.log r = .ok l ∧ realSpace.Agree (realSpace.exp l 4) r) ∧
      realSpace.HasEuclideanPlane ∧ ¬ negativeLine.HasEuclideanPlane ∧
      negativeLine.log (.scalar (-1)) = .error (.invalidAlgebra (.noEuclideanPlane "line")) := by
  let _ := analyticFunctions
  have hlaws := rotorLaws_analyticFunctions
  have hT := lawful_of_ofConfig ofConfig_realSpace
  have hT' := lawful_of_ofConfig ofConfig_negativeLine
  obtain ⟨hrotors, hone, hminus⟩ := logarithm_of_ofConfig hlaws ofConfig_realSpace 4
  obtain ⟨-, -, hline⟩ := logarithm_of_ofConfig hlaws ofConfig_negativeLine 4
  have hsign : realSpace.table.signOf (.ofVectors [0, 2]) = .minus := by decide +kernel
  have hsign' : realSpace.table.signOf (.ofVectors [0, 1]) = .plus := by decide +kernel
  have hrotor := isPlaneRotor_setCoordinate (s := 3 / 5) (t := 4 / 5) hT rfl
    (show 0 < 2 by decide) rfl rfl (by norm_num) (by norm_num)
  have hquarter := isPlaneRotor_setCoordinate (s := 0) (t := 1) hT rfl
    (show 0 < 1 by decide) rfl rfl (by norm_num) (by norm_num)
  rw [hsign, Sign.toScalar_minus, mul_neg_one] at hrotor
  rw [hsign', Sign.toScalar_plus, mul_one] at hquarter
  have hplane : realSpace.HasEuclideanPlane := ⟨0, 1, by decide, rfl, rfl⟩
  have hnone : ¬ negativeLine.HasEuclideanPlane := by
    rintro ⟨i, j, hij, -, hj⟩
    have hlt : j < 1 := (Array.getElem?_eq_some_iff.mp hj).1
    omega
  refine ⟨hlaws, ofConfig_realSpace, ofConfig_negativeLine, hrotor, hquarter, ?_, hplane, hnone,
    (hline _ (Multivector.wellFormed_scalar hT' _) (.of_eq rfl)).2 hnone⟩
  simp only [List.forall_mem_cons, List.not_mem_nil, false_imp_iff, implies_true, and_true]
  exact ⟨hrotors _ hrotor, hrotors _ hquarter,
    hone _ (Multivector.wellFormed_scalar hT _) (.of_eq rfl),
    (hminus _ (Multivector.wellFormed_scalar hT _) (.of_eq rfl)).1 hplane⟩

end Clifford

end GeometricAlgebra
