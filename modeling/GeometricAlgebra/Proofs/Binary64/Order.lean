/-
  GeometricAlgebra.Proofs.Binary64.Order

  The order of floating point numbers of 64 bits, infinities included.  A number has a place among
  the rational numbers and the two infinities, and numbers compare as their places do; what is not a
  number has no place and compares with nothing.

    * `place?`: the place of a number.
    * `compare_places`: comparing numbers compares their places.
    * `le_iff_places`, `lt_iff_places`, `beq_self_iff`: the comparisons of the arithmetic.
-/

import Mathlib.Order.WithBot
import GeometricAlgebra.Proofs.Binary64.Values

namespace GeometricAlgebra.Binary64

open Float.Model (Format UnpackedFloat)
open Float.Model.UnpackedFloat

/-- Where parts stand among the rational numbers and the two infinities. -/
def place? : UnpackedFloat → Option (WithBot (WithTop ℚ))
  | .notANumber => none
  | .infinity .negative => some ⊥
  | .infinity .positive => some (⊤ : WithTop ℚ)
  | u => some (toRat u : WithTop ℚ)

theorem place?_of_isFinite {u : UnpackedFloat} (h : IsFinite u) :
    place? u = some (toRat u : WithTop ℚ) := by
  cases u with
  | notANumber | infinity s => exact h.elim
  | zero s | finite s m e hm => rfl

/-! ## Comparisons of parts -/

theorem parts_cases (u : UnpackedFloat) :
    u = .notANumber ∨ u = .infinity .negative ∨ u = .infinity .positive ∨ IsFinite u := by
  cases u with
  | infinity s => cases s <;> simp
  | _ => simp [IsFinite]

/-- The negative infinity comes before everything finite, and the positive one after it. -/
theorem compare_infinity {u : UnpackedFloat} (hu : IsFinite u) :
    UnpackedFloat.compare (.infinity .negative) u = some .lt ∧
    UnpackedFloat.compare (.infinity .positive) u = some .gt ∧
    UnpackedFloat.compare u (.infinity .negative) = some .gt ∧
    UnpackedFloat.compare u (.infinity .positive) = some .lt := by
  cases u with
  | notANumber | infinity s => exact hu.elim
  | zero s | finite s m e hm => cases s <;> exact ⟨rfl, rfl, rfl, rfl⟩

/-- Comparing canonical parts compares their places. -/
theorem compare_places {u v : UnpackedFloat} (hu : Canonical u) (hv : Canonical v) :
    UnpackedFloat.compare u v =
      (place? u).bind fun p => (place? v).map fun q => compare p q := by
  have hbot : ∀ q : ℚ, (⊥ : WithBot (WithTop ℚ)) < (q : WithTop ℚ) := fun q => WithBot.bot_lt_coe _
  have htop : ∀ q : ℚ, ((q : WithTop ℚ) : WithBot (WithTop ℚ)) < (⊤ : WithTop ℚ) := fun q =>
    WithBot.coe_lt_coe.mpr (WithTop.coe_lt_top q)
  have hends : (⊥ : WithBot (WithTop ℚ)) < (⊤ : WithTop ℚ) := WithBot.bot_lt_coe _
  -- only the finite parts compare by their numbers; an infinity compares by its sign
  rcases parts_cases u with rfl | rfl | rfl | hu'
  · cases v <;> rfl
  · rcases parts_cases v with rfl | rfl | rfl | hv'
    · rfl
    · exact congrArg some (compare_eq_iff_eq.mpr rfl).symm
    · exact congrArg some (compare_lt_iff_lt.mpr hends).symm
    · rw [(compare_infinity hv').1, place?_of_isFinite hv']
      exact congrArg some (compare_lt_iff_lt.mpr (hbot _)).symm
  · rcases parts_cases v with rfl | rfl | rfl | hv'
    · rfl
    · exact congrArg some (compare_gt_iff_gt.mpr hends).symm
    · exact congrArg some (compare_eq_iff_eq.mpr rfl).symm
    · rw [(compare_infinity hv').2.1, place?_of_isFinite hv']
      exact congrArg some (compare_gt_iff_gt.mpr (htop _)).symm
  · rw [place?_of_isFinite hu']
    rcases parts_cases v with rfl | rfl | rfl | hv'
    · cases u <;> rfl
    · rw [(compare_infinity hu').2.2.1]
      exact congrArg some (compare_gt_iff_gt.mpr (hbot _)).symm
    · rw [(compare_infinity hu').2.2.2]
      exact congrArg some (compare_lt_iff_lt.mpr (htop _)).symm
    · have hmono : StrictMono fun q : ℚ => ((q : WithTop ℚ) : WithBot (WithTop ℚ)) := fun p q hpq =>
        WithBot.coe_lt_coe.mpr (WithTop.coe_lt_coe.mpr hpq)
      rw [compare_parts hu hv hu' hv', place?_of_isFinite hv', ← cmp_eq_compare,
        ← hmono.cmp_map_eq, cmp_eq_compare]
      rfl

/-! ## Comparisons of numbers -/

variable {x y z : Float}

theorem compare_unpacked_places (x y : Float) :
    UnpackedFloat.compare (unpacked x) (unpacked y) =
      (place? (unpacked x)).bind fun p => (place? (unpacked y)).map fun q => compare p q :=
  compare_places (canonical_unpacked x) (canonical_unpacked y)

theorem le_iff_places : x ≤ y ↔
    ∃ p q, place? (unpacked x) = some p ∧ place? (unpacked y) = some q ∧ p ≤ q := by
  rw [le_iff, UnpackedFloat.le, compare_unpacked_places]
  cases place? (unpacked x) with
  | none => simp
  | some p =>
    cases place? (unpacked y) with
    | none => simp
    | some q => simp [Ordering.isLE_iff_ne_gt, compare_gt_iff_gt]

theorem lt_iff_places : x < y ↔
    ∃ p q, place? (unpacked x) = some p ∧ place? (unpacked y) = some q ∧ p < q := by
  rw [lt_iff, UnpackedFloat.lt, compare_unpacked_places]
  cases place? (unpacked x) with
  | none => simp
  | some p =>
    cases place? (unpacked y) with
    | none => simp
    | some q => simp [compare_lt_iff_lt]

/-- What is not a number does not equal itself. -/
theorem beq_self_iff (x : Float) : (x == x) = true ↔ ∃ p, place? (unpacked x) = some p := by
  have hbeq : (x == x) = (unpacked x).beq (unpacked x) := rfl
  rw [hbeq, UnpackedFloat.beq, compare_unpacked_places]
  cases place? (unpacked x) with
  | none => simp
  | some p => simp

theorem beq_self_of_isFinite (hx : Numeral.isFinite x = true) : (x == x) = true :=
  (beq_self_iff x).mpr ⟨_, place?_of_isFinite ((isFinite_iff x).mp hx)⟩

theorem isNumber_abs (x : Float) : (Scalar.abs x == Scalar.abs x) = true ↔ (x == x) = true := by
  rw [beq_self_iff, beq_self_iff, unpacked_abs]
  cases unpacked x with
  | infinity s => cases s <;> simp [place?, UnpackedFloat.abs]
  | _ => simp [place?, UnpackedFloat.abs]

theorem isNumber_of_le (h : x ≤ y) : (x == x) = true ∧ (y == y) = true := by
  obtain ⟨p, q, hp, hq, -⟩ := le_iff_places.mp h
  exact ⟨(beq_self_iff x).mpr ⟨p, hp⟩, (beq_self_iff y).mpr ⟨q, hq⟩⟩

protected theorem lt_iff_le_not_ge (x y : Float) : x < y ↔ x ≤ y ∧ ¬ y ≤ x := by
  simp only [lt_iff_places, le_iff_places]
  constructor
  · rintro ⟨p, q, hp, hq, hlt⟩
    refine ⟨⟨p, q, hp, hq, hlt.le⟩, ?_⟩
    rintro ⟨q', p', hq', hp', hle⟩
    obtain rfl : p = p' := Option.some.inj (hp.symm.trans hp')
    obtain rfl : q = q' := Option.some.inj (hq.symm.trans hq')
    exact hlt.not_ge hle
  · rintro ⟨⟨p, q, hp, hq, -⟩, hnot⟩
    exact ⟨p, q, hp, hq, not_le.mp fun hle => hnot ⟨q, p, hq, hp, hle⟩⟩

protected theorem le_trans (hxy : x ≤ y) (hyz : y ≤ z) : x ≤ z := by
  rw [le_iff_places] at hxy hyz ⊢
  obtain ⟨p, q, hp, hq, hpq⟩ := hxy
  obtain ⟨q', r, hq', hr, hqr⟩ := hyz
  obtain rfl : q = q' := Option.some.inj (hq.symm.trans hq')
  exact ⟨p, r, hp, hr, hpq.trans hqr⟩

protected theorem le_total (hx : (x == x) = true) (hy : (y == y) = true) : x ≤ y ∨ y ≤ x := by
  obtain ⟨p, hp⟩ := (beq_self_iff x).mp hx
  obtain ⟨q, hq⟩ := (beq_self_iff y).mp hy
  simp only [le_iff_places]
  exact (le_total p q).imp (fun hle => ⟨p, q, hp, hq, hle⟩) fun hle => ⟨q, p, hq, hp, hle⟩

end GeometricAlgebra.Binary64
