/-
  GeometricAlgebra.Proofs.Multivector.ClosedForms

  The closed forms of the exponential family, in exact arithmetic.  If the square of a multivector
  counts as a scalar, every function of it is a multiple of it plus a scalar.  The sign of the
  square decides between circular and hyperbolic functions; `sin` and `cos` decide as `sinh` and
  `cosh` do at the opposite square, and one identity of the root of a square gives those of all
  closed forms.

    * `SquareRoot.IsRoot.pythagoras`: the identity of a root.
    * `Clifford.value_scaleAndAdd`: a multiple plus a scalar.
    * `Clifford.value_exp_of_square` and others: the value of each function.
    * `Clifford.closedForms_of_ofConfig`: the identities, in every accepted algebra.
-/

import Mathlib.Analysis.SpecialFunctions.Complex.Arg
import Mathlib.Analysis.SpecialFunctions.Log.Base
import GeometricAlgebra.Multivector.Exponential
import GeometricAlgebra.Proofs.Multivector.RandomBounds
import GeometricAlgebra.Proofs.Multivector.SetCoordinate
import GeometricAlgebra.Proofs.Multivector.WellFormed

namespace GeometricAlgebra

/-- Changing an entry is writing what becomes of it. -/
theorem Coordinates.modify_eq_setIfInBounds {α : Type} (cs : Coordinates α) (i : Nat) (f : α → α)
    (d : α) : cs.modify i f = cs.setIfInBounds i (f (cs.getD i d)) := by
  apply Array.ext_getElem?
  intro j
  rw [Array.getElem?_modify, Array.getElem?_setIfInBounds]
  by_cases hij : i = j
  · subst hij
    by_cases hi : i < cs.size
    · simp [hi, Array.getD_eq_getD_getElem?]
    · simp [hi]
  · rw [if_neg hij, if_neg hij]

theorem Multivector.negate_negate {K : Type} [Field K] [LinearOrder K] (x : Multivector K) :
    x.negate.negate = x := by
  simp [negate, Multivector.map]

namespace Clifford

/-! ## Roots of squares -/

namespace SquareRoot

/-- The root of the opposite square. -/
def opposite {α : Type} : SquareRoot α → SquareRoot α
  | .circular a => .hyperbolic a
  | .hyperbolic a => .circular a
  | .parabolic => .parabolic

section Values

variable {α : Type} [Elementary α]

/-- What the hyperbolic sine multiplies its argument with. -/
def sinhFactor : SquareRoot α → α
  | .circular a => Elementary.sin a / a
  | .hyperbolic a => Elementary.sinh a / a
  | .parabolic => 1

/-- The hyperbolic cosine. -/
def coshValue : SquareRoot α → α
  | .circular a => Elementary.cos a
  | .hyperbolic a => Elementary.cosh a
  | .parabolic => 1

end Values

variable {K : Type} [Field K]

/-- A root of a square. -/
inductive IsRoot : SquareRoot K → K → Prop
  | circular {a s : K} (ha : a ≠ 0) (hs : s = -(a * a)) : IsRoot (.circular a) s
  | hyperbolic {a s : K} (ha : a ≠ 0) (hs : s = a * a) : IsRoot (.hyperbolic a) s
  | parabolic : IsRoot .parabolic 0

variable {r : SquareRoot K} {s : K}

theorem IsRoot.opposite (hr : r.IsRoot s) : r.opposite.IsRoot (-s) := by
  cases hr with
  | circular ha hs => exact .hyperbolic ha (by rw [hs, neg_neg])
  | hyperbolic ha hs => exact .circular ha (congrArg Neg.neg hs)
  | parabolic =>
    rw [neg_zero]
    exact .parabolic

variable [LinearOrder K] [Elementary.Functions K]

/-- Exact square roots give a root of every square. -/
theorem isRoot_of [IsStrictOrderedRing K]
    (hsqrt : ∀ y : K, 0 ≤ y → Elementary.sqrt y * Elementary.sqrt y = y) (s : K) :
    (SquareRoot.of s).IsRoot s := by
  have hne : ∀ {y : K}, 0 < y → Elementary.sqrt y ≠ 0 := by
    intro y hy hzero
    have hsquare := hsqrt y hy.le
    rw [hzero, mul_zero] at hsquare
    exact hy.ne hsquare
  rw [SquareRoot.of]
  rcases lt_trichotomy s 0 with hneg | rfl | hpos
  · have hopposite : 0 < -s := neg_pos.mpr hneg
    rw [if_pos hneg]
    exact .circular (hne hopposite) (by rw [hsqrt _ hopposite.le, neg_neg])
  · rw [if_neg (lt_irrefl _), if_neg (lt_irrefl _)]
    exact .parabolic
  · rw [if_neg hpos.not_gt, if_pos hpos]
    exact .hyperbolic (hne hpos) (hsqrt s hpos.le).symm

/-- The identities of the circular and of the hyperbolic functions are one identity of roots. -/
theorem IsRoot.pythagoras
    (hcircular : ∀ t : K, Elementary.sin t ^ 2 + Elementary.cos t ^ 2 = 1)
    (hhyperbolic : ∀ t : K, Elementary.cosh t ^ 2 - Elementary.sinh t ^ 2 = 1)
    (hr : r.IsRoot s) : r.coshValue ^ 2 - s * r.sinhFactor ^ 2 = 1 := by
  cases hr with
  | @circular a _ ha hs =>
    rw [hs, coshValue, sinhFactor, div_pow, ← hcircular a]
    field_simp
    ring
  | @hyperbolic a _ ha hs =>
    rw [hs, coshValue, sinhFactor, div_pow, ← hhyperbolic a]
    field_simp
  | parabolic =>
    rw [coshValue]
    ring

end SquareRoot

variable {K : Type} [Field K] [LinearOrder K] {A : Clifford K} {R : BladeRule K}
  {x : Multivector K} {s : K}

/-! ## Multiples and scalars -/

section Values

variable (hT : A.table.Lawful) (hx : x.WellFormed A)
include hT hx

/-- Every entry is multiplied, whatever groups are stored. -/
theorem value_map {f : K → K} (hf : ∀ a, f a = s * a) :
    value R A (x.map f) = s • value R A x := by
  have hzero : f 0 = 0 := (hf 0).trans (mul_zero s)
  ext b
  rw [BladeSum.smul_apply, value_apply, value_apply]
  by_cases hb : b < 2 ^ A.dimension
  · rw [if_pos hb, if_pos hb, coefficient, coefficient, coordinate_eq_entry hT (hx.map f) hb,
      entry_map hT hx hzero (hT.index_lt b hb), ← coordinate_eq_entry hT hx hb, hf]
    ring
  · rw [if_neg hb, if_neg hb, mul_zero]

omit hT in
theorem wellFormed_negate : x.negate.WellFormed A := hx.map _

theorem value_negate : value R A x.negate = -value R A x := by
  rw [Multivector.negate, value_map hT hx fun a => (neg_one_mul a).symm, neg_one_smul]

theorem value_increment : value R A (A.increment x) = value R A x + 1 := by
  rw [increment, value_add hT hx (Multivector.wellFormed_scalar hT 1), value_scalar hT, one_smul]

/-- The first entry is the scalar, once its group is reserved. -/
theorem modify_reserve_eq_setCoordinate (c : K) :
    ({ A.reserve x 0 with coords := (A.reserve x 0).coords.modify 0 (· + c) } : Multivector K) =
      A.setCoordinate x 0 (A.coordinate x 0 + c) := by
  have hhas : (A.reserve x 0).grades.has 0 = true := by simp [has_reserve]
  have hfirst : (A.reserve x 0).coords.getD 0 0 = A.coordinate x 0 := by
    rw [← coordinate_reserve hx (Nat.zero_le _) 0, coordinate_zero hT, Multivector.scalarPart,
      if_pos hhas]
  rw [setCoordinate, Blade.grade_zero, GradeTable.offset_zero, localIndex_zero hT,
    Coordinates.modify_eq_setIfInBounds _ 0 _ 0, hfirst]

theorem value_scaleAndAdd (f c : K) :
    value R A (A.scaleAndAdd x f c) = f • value R A x + c • 1 := by
  have hmul : value R A (x.map (· * f)) = f • value R A x :=
    value_map hT hx fun a => mul_comm a f
  rw [scaleAndAdd]
  by_cases hc : c = 0
  · rw [if_pos (by simpa using hc), hc, zero_smul, add_zero, hmul]
  · have hy := hx.map (· * f)
    have hzero : (0 : Nat) < 2 ^ A.dimension := Nat.two_pow_pos _
    rw [if_neg (by simpa using hc), modify_reserve_eq_setCoordinate hT hy, ← hmul]
    ext b
    rw [BladeSum.add_apply, BladeSum.smul_apply, BladeSum.one_apply, value_apply, value_apply]
    by_cases hb : b < 2 ^ A.dimension
    · rw [if_pos hb, if_pos hb, coefficient, coefficient, coordinate_setCoordinate hT hy hzero hb]
      by_cases hb0 : b = 0
      · rw [if_pos hb0, if_pos hb0, hb0, hT.signOf_zero, Sign.toScalar_plus]
        ring
      · rw [if_neg hb0, if_neg hb0, mul_zero, add_zero]
    · have hb0 : b ≠ 0 := fun h => hb (h ▸ hzero)
      rw [if_neg hb, if_neg hb, if_neg hb0, mul_zero, add_zero]

end Values

/-! ## Squares -/

section Squares

variable [IsStrictOrderedRing K] (hT : A.table.Lawful) (hx : x.WellFormed A)
include hT hx

/-- Opposite multivectors have the same square. -/
theorem gp_negate_negate : A.gp x.negate x.negate = A.gp x x := by
  have hnegate := wellFormed_negate hx
  refine (reduced_gp hT _ _).ext_value (R := A.geometricRule) hT (reduced_gp hT _ _)
    (wellFormed_gp hT _ _) (wellFormed_gp hT _ _) ?_
  rw [value_gp hT hnegate hnegate, value_gp hT hx hx, value_negate hT hx, neg_mul_neg]

omit hx in
/-- A square that is a scalar is stored as one, or not at all. -/
theorem gp_self_of_agree (hs : A.Agree (A.gp x x) (.scalar s)) :
    A.gp x x = if s = 0 then .zero else .scalar s := by
  have hvalue := (agree_iff (R := A.geometricRule)).mp hs
  have hreduced := reduced_gp hT x x
  have hwf := wellFormed_gp hT x x
  by_cases hzero : s = 0
  · rw [value_scalar hT, hzero, zero_smul] at hvalue
    rw [if_pos hzero]
    exact hreduced.eq_zero hT hwf hvalue
  · rw [if_neg hzero]
    exact hreduced.ext_value hT (reduced_scalar hT hzero) hwf
      (Multivector.wellFormed_scalar hT s) hvalue

theorem value_mul_self_of_agree (hs : A.Agree (A.gp x x) (.scalar s)) :
    value A.geometricRule A x * value A.geometricRule A x = s • 1 := by
  rw [← value_gp hT hx hx, agree_iff.mp hs, value_scalar hT]

omit hx in
/-- The square of a vector is a scalar: its squared norm. -/
theorem IsVector.agree_gp_self (hv : A.IsVector x) : A.Agree (A.gp x x) (.scalar (A.norm2 x)) := by
  rw [agree_iff (R := A.geometricRule), value_gp hT hv.wellFormed hv.wellFormed,
    hv.isVector_value.mul_self, norm2_vector hT hv, value_scalar hT]

variable [Elementary.Functions K]

theorem scalarSquare?_negate : A.scalarSquare? x.negate = A.scalarSquare? x := by
  rw [scalarSquare?, scalarSquare?]
  simp only [gp_negate_negate hT hx]

omit hx in
/-- A square that is a scalar counts as one. -/
theorem scalarSquare?_of_agree (hs : A.Agree (A.gp x x) (.scalar s)) :
    A.scalarSquare? x = some s := by
  have hbound : (0 : K) < scalarSquareBound := by
    rw [scalarSquareBound]
    positivity
  have hgp := gp_self_of_agree hT hs
  rw [scalarSquare?]
  by_cases hzero : s = 0
  · rw [if_pos hzero] at hgp
    simp [hgp, Multivector.zero, Multivector.scalarPart, Scalar.sum, Scalar.negZero, hzero, hbound]
  · rw [if_neg hzero] at hgp
    simp [hgp, Multivector.scalar, Multivector.scalarPart, Scalar.sum, Scalar.negZero, hbound]

end Squares

/-! ## Closed forms -/

section ClosedForms

variable [Elementary.Functions K] (h : A.scalarSquare? x = some s) (order : Nat)
include h

theorem cosh_of_square : A.cosh x order = .scalar (SquareRoot.of s).coshValue := by
  rw [cosh, h, Option.map_some]
  cases SquareRoot.of s <;> rfl

/-- The cosine is a hyperbolic cosine at the opposite square. -/
theorem cos_of_square : A.cos x order = .scalar (SquareRoot.of s).opposite.coshValue := by
  rw [cos, h, Option.map_some]
  cases SquareRoot.of s <;> rfl

variable (hT : A.table.Lawful) (hx : x.WellFormed A)
include hT hx

theorem value_exp_of_square : value R A (A.exp x order) =
    (SquareRoot.of s).sinhFactor • value R A x + (SquareRoot.of s).coshValue • 1 := by
  rw [exp, h, Option.map_some]
  cases SquareRoot.of s with
  | circular a => exact value_scaleAndAdd hT hx _ _
  | hyperbolic a => exact value_scaleAndAdd hT hx _ _
  | parabolic => rw [value_increment hT hx, SquareRoot.sinhFactor, SquareRoot.coshValue, one_smul,
      one_smul]

theorem value_sinh_of_square [IsStrictOrderedRing K] : value R A (A.sinh x order) =
    (SquareRoot.of s).sinhFactor • value R A x := by
  rw [sinh, h, Option.map_some]
  cases SquareRoot.of s with
  | circular a => exact value_scale hT hx _
  | hyperbolic a => exact value_scale hT hx _
  | parabolic => rw [SquareRoot.sinhFactor, one_smul]

/-- The sine is a hyperbolic sine at the opposite square. -/
theorem value_sin_of_square [IsStrictOrderedRing K] : value R A (A.sin x order) =
    (SquareRoot.of s).opposite.sinhFactor • value R A x := by
  rw [sin, h, Option.map_some]
  cases SquareRoot.of s with
  | circular a => exact value_scale hT hx _
  | hyperbolic a => exact value_scale hT hx _
  | parabolic => rw [SquareRoot.opposite, SquareRoot.sinhFactor, one_smul]

end ClosedForms

/-! ## Identities -/

section Identities

theorem smul_mul_smul_of_square {X : BladeSum R} (hX : X * X = s • 1) (f : K) :
    f • X * (f • X) = (s * f ^ 2) • 1 := by
  rw [smul_mul_smul_comm, hX, smul_smul]
  congr 1
  ring

variable [IsStrictOrderedRing K] [Elementary.Functions K]
  (hsqrt : ∀ y : K, 0 ≤ y → Elementary.sqrt y * Elementary.sqrt y = y)
  (hcircular : ∀ t : K, Elementary.sin t ^ 2 + Elementary.cos t ^ 2 = 1)
  (hhyperbolic : ∀ t : K, Elementary.cosh t ^ 2 - Elementary.sinh t ^ 2 = 1)
  (hT : A.table.Lawful) (hx : x.WellFormed A) (hs : A.Agree (A.gp x x) (.scalar s)) (order : Nat)
include hsqrt hcircular hhyperbolic hT hx hs

/-- The exponentials of opposite multivectors are inverse to each other. -/
theorem agree_gp_exp_negate :
    A.Agree (A.gp (A.exp x order) (A.exp x.negate order)) (.scalar 1) := by
  have hnegate := wellFormed_negate hx
  have hsquare := scalarSquare?_of_agree hT hs
  have hsquare' := (scalarSquare?_negate hT hx).trans hsquare
  have hidentity := (SquareRoot.isRoot_of hsqrt s).pythagoras hcircular hhyperbolic
  have hX := value_mul_self_of_agree hT hx hs
  rw [agree_iff (R := A.geometricRule),
    value_gp hT (wellFormed_exp hT hx order) (wellFormed_exp hT hnegate order),
    value_exp_of_square hsquare order hT hx, value_exp_of_square hsquare' order hT hnegate,
    value_negate hT hx, value_scalar hT, one_smul]
  generalize value A.geometricRule A x = X at hX ⊢
  generalize (SquareRoot.of s).sinhFactor = f at hidentity ⊢
  generalize (SquareRoot.of s).coshValue = c at hidentity ⊢
  calc (f • X + c • 1) * (f • -X + c • 1) = (c ^ 2) • 1 - f • X * (f • X) := by
        simp only [mul_add, add_mul, smul_mul_smul_comm, mul_one, one_mul, mul_neg, smul_neg]
        module
    _ = 1 := by rw [smul_mul_smul_of_square hX, ← sub_smul, hidentity, one_smul]

theorem agree_cosh_sq_sub_sinh_sq :
    A.Agree (A.subtract (A.gp (A.cosh x order) (A.cosh x order))
      (A.gp (A.sinh x order) (A.sinh x order))) (.scalar 1) := by
  have hsquare := scalarSquare?_of_agree hT hs
  have hidentity := (SquareRoot.isRoot_of hsqrt s).pythagoras hcircular hhyperbolic
  have hX := value_mul_self_of_agree hT hx hs
  have hsinh := wellFormed_sinh hT hx order
  have hcosh := wellFormed_cosh hT hx order
  rw [agree_iff (R := A.geometricRule),
    value_subtract hT (wellFormed_gp hT _ _) (wellFormed_gp hT _ _), value_gp hT hcosh hcosh,
    value_gp hT hsinh hsinh, cosh_of_square hsquare, value_sinh_of_square hsquare order hT hx,
    smul_mul_smul_of_square hX, value_scalar hT, value_scalar hT, one_smul, smul_mul_smul_comm,
    one_mul, ← sq, ← sub_smul, hidentity, one_smul]

theorem agree_sin_sq_add_cos_sq :
    A.Agree (A.add (A.gp (A.sin x order) (A.sin x order))
      (A.gp (A.cos x order) (A.cos x order))) (.scalar 1) := by
  have hsquare := scalarSquare?_of_agree hT hs
  have hidentity :=
    (SquareRoot.isRoot_of hsqrt s).opposite.pythagoras hcircular hhyperbolic
  rw [neg_mul, sub_neg_eq_add, add_comm] at hidentity
  have hX := value_mul_self_of_agree hT hx hs
  have hsin := wellFormed_sin hT hx order
  have hcos := wellFormed_cos hT x order
  rw [agree_iff (R := A.geometricRule),
    value_add hT (wellFormed_gp hT _ _) (wellFormed_gp hT _ _), value_gp hT hsin hsin,
    value_gp hT hcos hcos, cos_of_square hsquare, value_sin_of_square hsquare order hT hx,
    smul_mul_smul_of_square hX, value_scalar hT, value_scalar hT, one_smul, smul_mul_smul_comm,
    one_mul, ← sq, ← add_smul, hidentity, one_smul]

end Identities

/-- In exact arithmetic, in every accepted algebra, for an exact square root and functions that
    satisfy the identities of sine and cosine, circular and hyperbolic: if the square of a
    multivector is a scalar, whatever its sign and whatever groups are stored, the exponentials of
    the multivector and its opposite multiply to one, and its own sines and cosines satisfy the same
    identities. -/
theorem closedForms_of_ofConfig [IsStrictOrderedRing K] [Elementary.Functions K]
    (hsqrt : ∀ y : K, 0 ≤ y → Elementary.sqrt y * Elementary.sqrt y = y)
    (hcircular : ∀ t : K, Elementary.sin t ^ 2 + Elementary.cos t ^ 2 = 1)
    (hhyperbolic : ∀ t : K, Elementary.cosh t ^ 2 - Elementary.sinh t ^ 2 = 1)
    {c : Config K} (h : ofConfig c = .ok A) (hx : x.WellFormed A)
    (hs : A.Agree (A.gp x x) (.scalar s)) (order : Nat) :
    A.Agree (A.gp (A.exp x order) (A.exp x.negate order)) (.scalar 1) ∧
      A.Agree (A.subtract (A.gp (A.cosh x order) (A.cosh x order))
        (A.gp (A.sinh x order) (A.sinh x order))) (.scalar 1) ∧
      A.Agree (A.add (A.gp (A.sin x order) (A.sin x order))
        (A.gp (A.cos x order) (A.cos x order))) (.scalar 1) := by
  have hT := lawful_of_ofConfig h
  exact ⟨agree_gp_exp_negate hsqrt hcircular hhyperbolic hT hx hs order,
    agree_cosh_sq_sub_sinh_sq hsqrt hcircular hhyperbolic hT hx hs order,
    agree_sin_sq_add_cos_sq hsqrt hcircular hhyperbolic hT hx hs order⟩

/-- The elementary functions of the real numbers. -/
@[reducible] noncomputable def analyticFunctions : Elementary.Functions ℝ where
  sqrt := Real.sqrt
  sin := Real.sin
  cos := Real.cos
  sinh := Real.sinh
  cosh := Real.cosh
  atan2 y x := Complex.arg ⟨x, y⟩
  pi := Real.pi
  log2 := Real.logb (2 : Nat)
  trunc x := if 0 ≤ x then ⌊x⌋ else ⌈x⌉
  floor x := ⌊x⌋
  toNat x := ⌊x⌋₊

theorem norm2_vector_negativeLine (c : ℝ) :
    negativeLine.norm2 (negativeLine.vector #[c]) = -(c * c) := by
  have hT := lawful_of_ofConfig ofConfig_negativeLine
  have hv := wellFormed_vector hT (dimension_pos_of_ofConfig ofConfig_negativeLine) #[c]
  have hone := Multivector.wellFormed_scalar (A := negativeLine) hT (1 : ℝ)
  have hvalue : value negativeLine.geometricRule negativeLine
      (negativeLine.gp (.scalar 1) (negativeLine.vector #[c])) =
        value negativeLine.geometricRule negativeLine (negativeLine.vector #[c]) := by
    rw [value_gp hT hone hv, value_scalar hT, one_smul, one_mul]
  rw [← norm2_gp_negativeLine, norm2_eq hT hv, norm2_eq hT (wellFormed_gp hT _ _), hvalue]

/-- A vector of negative square, a scalar of positive square, and zero. -/
theorem closedForms_negativeLine :
    let _ := analyticFunctions
    ofConfig Config.negativeLine = .ok negativeLine ∧
      let v := negativeLine.vector #[2]
      negativeLine.Agree (negativeLine.gp v v) (.scalar (-(2 * 2))) ∧
        negativeLine.Agree (negativeLine.gp (negativeLine.exp v 4) (negativeLine.exp v.negate 4))
          (.scalar 1) ∧
        negativeLine.Agree (negativeLine.gp (.scalar 3) (.scalar 3)) (.scalar (3 * 3)) ∧
        negativeLine.Agree (negativeLine.subtract
          (negativeLine.gp (negativeLine.cosh (.scalar 3) 4) (negativeLine.cosh (.scalar 3) 4))
          (negativeLine.gp (negativeLine.sinh (.scalar 3) 4) (negativeLine.sinh (.scalar 3) 4)))
          (.scalar 1) ∧
        negativeLine.Agree (negativeLine.gp .zero .zero) (.scalar 0) ∧
        negativeLine.Agree (negativeLine.add
          (negativeLine.gp (negativeLine.sin .zero 4) (negativeLine.sin .zero 4))
          (negativeLine.gp (negativeLine.cos .zero 4) (negativeLine.cos .zero 4))) (.scalar 1) := by
  let _ := analyticFunctions
  have hA := ofConfig_negativeLine
  have hT := lawful_of_ofConfig hA
  have hvector := isVector_vector hT (dimension_pos_of_ofConfig hA) #[2]
  have hscalar := Multivector.wellFormed_scalar (A := negativeLine) hT (3 : ℝ)
  have hzero : Multivector.zero.WellFormed negativeLine := Multivector.wellFormed_zero
  have hnegative : negativeLine.Agree (negativeLine.gp (negativeLine.vector #[2])
      (negativeLine.vector #[2])) (.scalar (-(2 * 2))) := by
    rw [← norm2_vector_negativeLine]
    exact IsVector.agree_gp_self hT hvector
  have hpositive : negativeLine.Agree (negativeLine.gp (.scalar 3) (.scalar 3))
      (.scalar (3 * 3)) := by
    rw [agree_iff (R := negativeLine.geometricRule), value_gp hT hscalar hscalar, value_scalar hT,
      value_scalar hT, smul_mul_smul_comm, one_mul]
  have hparabolic : negativeLine.Agree (negativeLine.gp .zero .zero) (.scalar 0) := by
    rw [agree_iff (R := negativeLine.geometricRule), value_gp hT hzero hzero, value_zero,
      value_scalar hT, zero_mul, zero_smul]
  have hforms := fun {x : Multivector ℝ} {s : ℝ} => closedForms_of_ofConfig (x := x) (s := s)
    (fun y hy => Real.mul_self_sqrt hy) Real.sin_sq_add_cos_sq Real.cosh_sq_sub_sinh_sq hA
  exact ⟨hA, hnegative, (hforms hvector.wellFormed hnegative 4).1, hpositive,
    (hforms hscalar hpositive 4).2.1, hparabolic, (hforms hzero hparabolic 4).2.2⟩

end Clifford

end GeometricAlgebra
