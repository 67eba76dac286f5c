/-
  GeometricAlgebra.Proofs.Binary64.Values

  The rational numbers behind floating point numbers of 64 bits.  A finite number is plus or minus
  a mantissa times a power of two; canonical parts compare as these numbers do, because a larger
  exponent outweighs every mantissa of a smaller one.

    * `Numeral.value`: the number behind a scalar, and zero if it is not finite.
    * `finite_cases`: the parts of a finite number, with its value.
    * `compare_parts`: comparing canonical parts compares the numbers.
    * `le_iff_value_le`, `lt_iff_value_lt`: comparing finite numbers does.
    * `AtLeast`: bounds from below that an infinity passes, too.
-/

import GeometricAlgebra.Proofs.Binary64.Signs

namespace GeometricAlgebra

/-- The rational number of an expansion; zero if there is none. -/
def Expansion.toRat : Expansion → ℚ
  | .finite true num den => -(num / den)
  | .finite false num den => num / den
  | _ => 0

/-- The rational number behind a scalar; zero if the scalar is not finite. -/
def Numeral.value {α : Type} [Numeral α] (x : α) : ℚ := (Numeral.expand x).toRat

namespace Binary64

open Float.Model (Format UnpackedFloat)
open Float.Model.UnpackedFloat
open Numeral (value)

/-! ## Numbers behind parts -/

/-- The rational number that parts stand for; zero if there is none. -/
def toRat : UnpackedFloat → ℚ
  | .finite .negative m e _ => -(m * 2 ^ e)
  | .finite .positive m e _ => m * 2 ^ e
  | .zero _ | .infinity _ | .notANumber => 0

/-- Parts that stand for a rational number. -/
def IsFinite : UnpackedFloat → Prop
  | .zero _ | .finite .. => True
  | _ => False

theorem powerRatio_div (n : Nat) (e : Int) :
    ((powerRatio n e).1 / (powerRatio n e).2 : ℚ) = n * 2 ^ e := by
  rw [powerRatio]
  split
  · rename_i h
    obtain ⟨k, rfl⟩ := Int.eq_ofNat_of_zero_le h
    simp [Nat.shiftLeft_eq]
  · rename_i h
    obtain ⟨k, rfl⟩ := Int.eq_negSucc_of_lt_zero (Int.not_le.mp h)
    simp [Nat.shiftLeft_eq, Int.neg_negSucc, zpow_negSucc, div_eq_mul_inv]

theorem toRat_expansion (u : UnpackedFloat) : (expansion u).toRat = toRat u := by
  cases u with
  | notANumber => rfl
  | infinity s => rfl
  | zero s => cases s <;> simp [expansion, Expansion.toRat, toRat, isMinus]
  | finite s m e hm =>
    cases s <;> simp [expansion, Expansion.toRat, toRat, isMinus, powerRatio_div]

theorem value_eq (x : Float) : value x = toRat (unpacked x) := by
  rw [value, expand_eq, toRat_expansion]

theorem isFinite_iff (x : Float) : Numeral.isFinite x = true ↔ IsFinite (unpacked x) := by
  rw [Numeral.isFinite, expand_eq]
  cases unpacked x <;> simp [expansion, IsFinite]

theorem value_of_unpacked {x : Float} {m : Nat} {e : Int} {hm : 0 < m}
    (h : unpacked x = .finite .positive m e hm) : value x = m * 2 ^ e := by
  rw [value_eq, h, toRat]

theorem isFinite_of_unpacked {x : Float} {s : UnpackedFloat.Sign} {m : Nat} {e : Int} {hm : 0 < m}
    (h : unpacked x = .finite s m e hm) : Numeral.isFinite x = true := by
  rw [isFinite_iff, h]
  trivial

/-- A finite number is a zero, positive or negative. -/
theorem finite_cases {x : Float} (hx : Numeral.isFinite x = true) :
    (∃ s, unpacked x = .zero s ∧ value x = 0) ∨
    (∃ m e, ∃ hm : 0 < m, unpacked x = .finite .positive m e hm ∧ Fits m e ∧
      value x = m * 2 ^ e) ∨
    ∃ m e, ∃ hm : 0 < m, unpacked x = .finite .negative m e hm ∧ Fits m e ∧
      value x = -(m * 2 ^ e) := by
  have hcanonical := canonical_unpacked x
  rw [isFinite_iff] at hx
  rw [value_eq]
  cases hu : unpacked x with
  | notANumber | infinity s =>
    rw [hu] at hx
    exact hx.elim
  | zero s => exact .inl ⟨s, rfl, rfl⟩
  | finite s m e hm =>
    rw [hu] at hcanonical
    cases s with
    | negative => exact .inr (.inr ⟨m, e, hm, rfl, hcanonical, rfl⟩)
    | positive => exact .inr (.inl ⟨m, e, hm, rfl, hcanonical, rfl⟩)

theorem isFinite_of_value_ne_zero {x : Float} (h : value x ≠ 0) : Numeral.isFinite x = true := by
  rw [isFinite_iff]
  rw [value_eq] at h
  cases hu : unpacked x with
  | notANumber | infinity s =>
    rw [hu] at h
    exact absurd rfl h
  | zero s | finite s m e hm => trivial

/-! ## Comparisons -/

variable {m k : Nat} {e d : Int}

/-- A larger exponent outweighs every mantissa. -/
theorem mul_two_zpow_lt (hm : m < 2 ^ 53) (hk : 2 ^ 52 ≤ k) (hlt : e < d) :
    (m * 2 ^ e : ℚ) < k * 2 ^ d := by
  have hm' : (m : ℚ) < 2 ^ 53 := by exact_mod_cast hm
  have hk' : (2 ^ 52 : ℚ) ≤ k := by exact_mod_cast hk
  calc (m * 2 ^ e : ℚ) < 2 ^ 53 * 2 ^ e := by gcongr
    _ = 2 ^ 52 * 2 ^ (e + 1) := by
      rw [zpow_add_one₀ two_ne_zero]
      ring
    _ ≤ k * 2 ^ d := by
      gcongr
      · norm_num
      · omega

theorem Fits.mul_two_zpow_lt (h : Fits m e) (h' : Fits k d) (hlt : e < d) :
    (m * 2 ^ e : ℚ) < k * 2 ^ d :=
  Binary64.mul_two_zpow_lt h.1 (h'.2.2.2.resolve_right (by have := h.2.1; omega)) hlt

/-- Exponents come first, then mantissas. -/
theorem compare_fits (h : Fits m e) (h' : Fits k d) :
    (compare e d).then (compare m k) = compare (m * 2 ^ e : ℚ) (k * 2 ^ d) := by
  rcases lt_trichotomy e d with hlt | rfl | hgt
  · rw [compare_lt_iff_lt.mpr hlt, compare_lt_iff_lt.mpr (h.mul_two_zpow_lt h' hlt)]
    rfl
  · have hmono : StrictMono fun n : Nat => (n * 2 ^ e : ℚ) := fun a b hab => by
      dsimp only
      gcongr
    rw [compare_eq_iff_eq.mpr rfl, ← cmp_eq_compare, ← cmp_eq_compare, ← hmono.cmp_map_eq m k]
    rfl
  · rw [compare_gt_iff_gt.mpr hgt, compare_gt_iff_gt.mpr (h'.mul_two_zpow_lt h hgt)]
    rfl

/-- Comparing finite parts compares the numbers they stand for. -/
theorem compare_parts {u v : UnpackedFloat} (hu : Canonical u) (hv : Canonical v)
    (hu' : IsFinite u) (hv' : IsFinite v) :
    UnpackedFloat.compare u v = some (compare (toRat u) (toRat v)) := by
  have hpos : ∀ {m : Nat} (e : Int), 0 < m → (0 : ℚ) < m * 2 ^ e := fun e hm => by positivity
  cases u with
  | notANumber => exact hu'.elim
  | infinity s => exact hu'.elim
  | zero s =>
    cases v with
    | notANumber => exact hv'.elim
    | infinity t => exact hv'.elim
    | zero t => simp [UnpackedFloat.compare, toRat]
    | finite t k d hk =>
      have hd := hpos d hk
      cases t with
      | negative => rw [toRat, toRat, compare_gt_iff_gt.mpr (neg_lt_zero.mpr hd)]; rfl
      | positive => rw [toRat, toRat, compare_lt_iff_lt.mpr hd]; rfl
  | finite s m e hm =>
    have he := hpos e hm
    cases v with
    | notANumber => exact hv'.elim
    | infinity t => exact hv'.elim
    | zero t =>
      cases s with
      | negative => rw [toRat, toRat, compare_lt_iff_lt.mpr (neg_lt_zero.mpr he)]; rfl
      | positive => rw [toRat, toRat, compare_gt_iff_gt.mpr he]; rfl
    | finite t k d hk =>
      have hd := hpos d hk
      cases s with
      | negative =>
        cases t with
        | negative =>
          have hneg : compare (-(m * 2 ^ e : ℚ)) (-(k * 2 ^ d)) =
              (compare (m * 2 ^ e : ℚ) (k * 2 ^ d)).swap := by
            rw [← cmp_eq_compare, ← cmp_eq_compare, cmp_swap,
              StrictAnti.cmp_map_eq fun a b => neg_lt_neg]
          rw [toRat, toRat, hneg, ← compare_fits hu hv]
          rfl
        | positive =>
          rw [toRat, toRat, compare_lt_iff_lt.mpr ((neg_lt_zero.mpr he).trans hd)]
          rfl
      | positive =>
        cases t with
        | negative =>
          rw [toRat, toRat, compare_gt_iff_gt.mpr ((neg_lt_zero.mpr hd).trans he)]
          rfl
        | positive =>
          rw [toRat, toRat, ← compare_fits hu hv]
          rfl

variable {x y : Float}

theorem compare_unpacked (hx : Numeral.isFinite x = true) (hy : Numeral.isFinite y = true) :
    UnpackedFloat.compare (unpacked x) (unpacked y) = some (compare (value x) (value y)) := by
  rw [value_eq, value_eq]
  exact compare_parts (canonical_unpacked x) (canonical_unpacked y) ((isFinite_iff x).mp hx)
    ((isFinite_iff y).mp hy)

theorem le_iff : x ≤ y ↔ (unpacked x).le (unpacked y) = true :=
  decide_eq_true_iff (p := x.toModel ≤ y.toModel)

theorem lt_iff : x < y ↔ (unpacked x).lt (unpacked y) = true :=
  decide_eq_true_iff (p := x.toModel < y.toModel)

theorem le_iff_value_le (hx : Numeral.isFinite x = true) (hy : Numeral.isFinite y = true) :
    x ≤ y ↔ value x ≤ value y := by
  rw [le_iff, UnpackedFloat.le, compare_unpacked hx hy, Option.any_some,
    Ordering.isLE_iff_ne_gt, ← compare_le_iff_le]

theorem lt_iff_value_lt (hx : Numeral.isFinite x = true) (hy : Numeral.isFinite y = true) :
    x < y ↔ value x < value y := by
  rw [lt_iff, UnpackedFloat.lt, compare_unpacked hx hy, beq_iff_eq, Option.some_inj,
    compare_lt_iff_lt]

/-! ## Numbers of given values -/

theorem value_zero : Numeral.isFinite (0 : Float) = true ∧ value (0 : Float) = 0 := by
  rw [isFinite_iff, value_eq, unpacked_zero]
  exact ⟨trivial, rfl⟩

theorem value_one : Numeral.isFinite (1 : Float) = true ∧ value (1 : Float) = 1 := by
  rw [isFinite_iff, value_eq, unpacked_one]
  refine ⟨trivial, ?_⟩
  rw [one, toRat]
  norm_num

theorem value_neg {c : Float} (hc : Numeral.isFinite c = true) :
    Numeral.isFinite (-c) = true ∧ value (-c) = -value c := by
  rw [isFinite_iff, value_eq, unpacked_neg]
  rcases finite_cases hc with
    ⟨s, hu, hvalue⟩ | ⟨m, e, hm, hu, -, hvalue⟩ | ⟨m, e, hm, hu, -, hvalue⟩
  · rw [hu, hvalue, neg_zero]
    exact ⟨trivial, rfl⟩
  · rw [hu, hvalue]
    exact ⟨trivial, rfl⟩
  · rw [hu, hvalue, neg_neg]
    exact ⟨trivial, rfl⟩

theorem value_abs {c : Float} (hc : Numeral.isFinite c = true) :
    Numeral.isFinite (Scalar.abs c) = true ∧ value (Scalar.abs c) = |value c| := by
  have hnonneg : ∀ (m : Nat) (e : Int), (0 : ℚ) ≤ m * 2 ^ e := fun m e => by positivity
  rw [isFinite_iff, value_eq, unpacked_abs]
  rcases finite_cases hc with
    ⟨s, hu, hvalue⟩ | ⟨m, e, hm, hu, -, hvalue⟩ | ⟨m, e, hm, hu, -, hvalue⟩
  · rw [hu, hvalue, abs_zero]
    exact ⟨trivial, rfl⟩
  · rw [hu, hvalue, abs_of_nonneg (hnonneg m e)]
    exact ⟨trivial, rfl⟩
  · rw [hu, hvalue, abs_neg, abs_of_nonneg (hnonneg m e)]
    exact ⟨trivial, rfl⟩

/-- The powers of two of the format. -/
theorem exists_value_two_pow {m : Nat} (hm : m ≤ 1023) :
    ∃ y : Float, Numeral.isFinite y = true ∧ value y = (2 ^ m : Nat) := by
  have hfits : Fits (2 ^ 52) (m - 52) := ⟨by decide, by omega, by omega, .inl le_rfl⟩
  have hu : unpacked ⟨Float.Model.pack (.finite .positive (2 ^ 52) (m - 52) (by decide))⟩ =
      .finite .positive (2 ^ 52) (m - 52) (by decide) := unpacked_pack hfits
  refine ⟨_, isFinite_of_unpacked hu, ?_⟩
  rw [value_of_unpacked hu, zpow_sub₀ two_ne_zero]
  push_cast
  field_simp
  simp

/-- A number that is zero has the parts of a zero. -/
theorem exists_unpacked_of_value_zero (hx : Numeral.isFinite x = true) (hvalue : value x = 0) :
    ∃ s, unpacked x = .zero s := by
  have hpos : ∀ {m : Nat} (e : Int), 0 < m → (m * 2 ^ e : ℚ) ≠ 0 := fun e hm => by positivity
  rcases finite_cases hx with ⟨s, hu, -⟩ | ⟨m, e, hm, -, -, h⟩ | ⟨m, e, hm, -, -, h⟩
  · exact ⟨s, hu⟩
  · exact absurd (h.symm.trans hvalue) (hpos e hm)
  · exact absurd (neg_eq_zero.mp (h.symm.trans hvalue)) (hpos e hm)

/-- A positive number has no minus. -/
theorem exists_unpacked_of_value_pos (hx : Numeral.isFinite x = true) (hpos : 0 < value x) :
    ∃ m e, ∃ hm : 0 < m, unpacked x = .finite .positive m e hm ∧ Fits m e := by
  rcases finite_cases hx with ⟨s, -, h⟩ | ⟨m, e, hm, hu, hfits, -⟩ | ⟨m, e, hm, -, -, h⟩
  · exact absurd h hpos.ne'
  · exact ⟨m, e, hm, hu, hfits⟩
  · have hnonneg : (0 : ℚ) ≤ m * 2 ^ e := by positivity
    rw [h, neg_pos] at hpos
    exact absurd hpos hnonneg.not_gt

/-! ## Bounds from below -/

/-- Whether a scalar is the positive infinity, or finite and at least a bound. -/
def AtLeast (q : ℚ) (x : Float) : Prop :=
  unpacked x = .infinity .positive ∨ Numeral.isFinite x = true ∧ q ≤ value x

theorem AtLeast.le_value {q : ℚ} (h : AtLeast q x) (hx : Numeral.isFinite x = true) :
    q ≤ value x := by
  refine (h.resolve_left fun hinfinity => ?_).2
  rw [isFinite_iff, hinfinity] at hx
  exact hx

theorem le_iff_atLeast (hx : Numeral.isFinite x = true) : x ≤ y ↔ AtLeast (value x) y := by
  have hx' := (isFinite_iff x).mp hx
  by_cases hy : Numeral.isFinite y = true
  · have hne : unpacked y ≠ .infinity .positive := fun h => by
      rw [isFinite_iff, h] at hy
      exact hy
    rw [le_iff_value_le hx hy, AtLeast, or_iff_right hne, and_iff_right hy]
  · -- an infinity compares by its sign, and what is no number not at all
    rw [le_iff, AtLeast, or_iff_left fun h => hy h.1]
    rw [isFinite_iff] at hy
    cases hu : unpacked y with
    | zero t | finite t k d hk =>
      rw [hu] at hy
      exact absurd trivial hy
    | notANumber => cases unpacked x <;> simp [UnpackedFloat.le, UnpackedFloat.compare]
    | infinity t =>
      cases hv : unpacked x with
      | notANumber | infinity s =>
        rw [hv] at hx'
        exact hx'.elim
      | zero s => cases t <;> simp [UnpackedFloat.le, UnpackedFloat.compare]
      | finite s m e hm => cases s <;> cases t <;> simp [UnpackedFloat.le, UnpackedFloat.compare]

/-- A scalar with a bound from below and a finite scalar above it is finite. -/
theorem AtLeast.isFinite_of_le {q : ℚ} (h : AtLeast q x) (hle : x ≤ y)
    (hy : Numeral.isFinite y = true) : Numeral.isFinite x = true := by
  refine h.elim (fun hinfinity => ?_) And.left
  rw [isFinite_iff] at hy
  rw [le_iff, hinfinity] at hle
  cases hu : unpacked y <;> rw [hu] at hle hy <;>
    simp_all [UnpackedFloat.le, UnpackedFloat.compare, IsFinite]

/-- A scalar is not below what bounds it from below. -/
theorem AtLeast.not_lt (h : AtLeast (value y) x) (hy : Numeral.isFinite y = true) : ¬ x < y := by
  rcases h with hinfinity | ⟨hx, hle⟩
  · rw [isFinite_iff] at hy
    rw [lt_iff, hinfinity]
    cases hu : unpacked y <;> rw [hu] at hy <;>
      simp_all [UnpackedFloat.lt, UnpackedFloat.compare, IsFinite]
  · rw [lt_iff_value_lt hx hy]
    exact hle.not_gt

end Binary64

end GeometricAlgebra
