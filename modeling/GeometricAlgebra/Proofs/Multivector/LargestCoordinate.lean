/-
  GeometricAlgebra.Proofs.Multivector.LargestCoordinate

  The largest magnitude of a coordinate, for coordinates of every kind: infinities count, and what is
  not a number does not.

    * `Scalar.OrderedNumbers`: the laws of comparisons.
    * `Scalar.larger_le_iff`: the larger of a bound and a new value.
    * `Multivector.largestCoordinate_le_iff`: bounds on the largest coordinate.
    * `Multivector.largestCoordinate_cases`: it is zero or the magnitude of a coordinate.
-/

import GeometricAlgebra.Multivector
import GeometricAlgebra.Proofs.Binary64.Order
import GeometricAlgebra.Proofs.ExactZero

namespace GeometricAlgebra

/-! ## Numbers -/

/-- Whether a scalar is a number; what is not a number does not equal itself. -/
def Scalar.IsNumber {α : Type} [Scalar α] (x : α) : Prop := (x == x) = true

instance {α : Type} [Scalar α] (x : α) : Decidable (Scalar.IsNumber x) :=
  inferInstanceAs (Decidable ((x == x) = true))

/-- Arithmetic whose numbers are ordered, infinite ones included.  What is not a number compares with
    nothing. -/
class Scalar.OrderedNumbers (α : Type) [Scalar α] : Prop extends Scalar.ExactZero α where
  protected lt_iff_le_not_ge (x y : α) : x < y ↔ x ≤ y ∧ ¬ y ≤ x
  protected le_trans {x y z : α} : x ≤ y → y ≤ z → x ≤ z
  protected le_total {x y : α} : IsNumber x → IsNumber y → x ≤ y ∨ y ≤ x
  isNumber_of_le {x y : α} : x ≤ y → IsNumber x ∧ IsNumber y
  isNumber_abs (x : α) : IsNumber (Scalar.abs x) ↔ IsNumber x

instance : Scalar.OrderedNumbers Float where
  lt_iff_le_not_ge := Binary64.lt_iff_le_not_ge
  le_trans := Binary64.le_trans
  le_total := Binary64.le_total
  isNumber_of_le := Binary64.isNumber_of_le
  isNumber_abs := Binary64.isNumber_abs

instance (priority := low) {K : Type} [Field K] [LinearOrder K] [IsStrictOrderedRing K] :
    Scalar.OrderedNumbers K where
  lt_iff_le_not_ge _ _ := lt_iff_le_not_ge
  le_trans := le_trans
  le_total _ _ := le_total _ _
  isNumber_of_le _ := ⟨decide_eq_true rfl, decide_eq_true rfl⟩
  isNumber_abs _ := iff_of_true (decide_eq_true rfl) (decide_eq_true rfl)

namespace Scalar

variable {α : Type} [Scalar α] [OrderedNumbers α] {x y z m bound : α}

theorem isNumber_zero : IsNumber (0 : α) := ExactZero.zero_beq_zero

theorem IsNumber.le_refl (h : IsNumber x) : x ≤ x := (OrderedNumbers.le_total h h).elim id id

theorem OrderedNumbers.le_of_lt (h : x < y) : x ≤ y :=
  ((OrderedNumbers.lt_iff_le_not_ge x y).mp h).1

theorem OrderedNumbers.not_le_of_lt (h : x < y) : ¬ y ≤ x :=
  ((OrderedNumbers.lt_iff_le_not_ge x y).mp h).2

theorem OrderedNumbers.lt_irrefl (x : α) : ¬ x < x := fun h => not_le_of_lt h (le_of_lt h)

theorem OrderedNumbers.lt_of_le_of_lt (hxy : x ≤ y) (hyz : y < z) : x < z :=
  (OrderedNumbers.lt_iff_le_not_ge x z).mpr ⟨OrderedNumbers.le_trans hxy (le_of_lt hyz), fun hzx =>
    not_le_of_lt hyz (OrderedNumbers.le_trans hzx hxy)⟩

theorem OrderedNumbers.zero_le_of (h : x = 0 ∨ 0 < x) : 0 ≤ x := by
  rcases h with rfl | hpos
  · exact isNumber_zero.le_refl
  · exact le_of_lt hpos

theorem IsNumber.le_of_not_lt (hx : IsNumber x) (hy : IsNumber y) (h : ¬ x < y) : y ≤ x := by
  by_contra hyx
  exact h ((OrderedNumbers.lt_iff_le_not_ge x y).mpr
    ⟨(OrderedNumbers.le_total hx hy).resolve_right hyx, hyx⟩)

/-- The larger of two is within a bound if both are; what is not a number does not count. -/
theorem larger_le_iff : larger m x ≤ bound ↔ m ≤ bound ∧ (IsNumber x → x ≤ bound) := by
  rw [larger]
  split_ifs with hlt
  · have hle := OrderedNumbers.le_of_lt hlt
    have hx := (OrderedNumbers.isNumber_of_le hle).2
    exact ⟨fun h => ⟨OrderedNumbers.le_trans hle h, fun _ => h⟩, fun h => h.2 hx⟩
  · refine ⟨fun h => ⟨h, fun hx => ?_⟩, And.left⟩
    have hm := (OrderedNumbers.isNumber_of_le h).1
    exact OrderedNumbers.le_trans (hm.le_of_not_lt hx hlt) h

end Scalar

/-! ## The largest coordinate -/

namespace Multivector

open Scalar (IsNumber OrderedNumbers larger)

variable {α : Type} [Scalar α] [OrderedNumbers α] {x : Multivector α}

/-- The largest coordinate is within a bound if zero and every coordinate that is a number are. -/
theorem largestCoordinate_le_iff {bound : α} : x.largestCoordinate ≤ bound ↔
    0 ≤ bound ∧ ∀ c ∈ x.coords, IsNumber c → Scalar.abs c ≤ bound := by
  have hfold : ∀ (cs : List α) (m : α),
      cs.foldl (fun m c => larger m (Scalar.abs c)) m ≤ bound ↔
        m ≤ bound ∧ ∀ c ∈ cs, IsNumber c → Scalar.abs c ≤ bound := by
    intro cs
    induction cs with
    | nil => simp
    | cons c cs ih =>
      intro m
      rw [List.foldl_cons, ih, Scalar.larger_le_iff, OrderedNumbers.isNumber_abs,
        List.forall_mem_cons, and_assoc]
  rw [largestCoordinate, ← Array.foldl_toList, hfold]
  simp only [Array.mem_toList_iff]

/-- The largest coordinate is zero, or it is the magnitude of a coordinate. -/
theorem largestCoordinate_cases (x : Multivector α) : x.largestCoordinate = 0 ∨
    0 < x.largestCoordinate ∧ ∃ c ∈ x.coords, x.largestCoordinate = Scalar.abs c := by
  rw [largestCoordinate, ← Array.foldl_toList]
  refine List.foldlRecOn (motive := fun m => m = 0 ∨ 0 < m ∧ ∃ c ∈ x.coords, m = Scalar.abs c)
    _ _ (.inl rfl) ?_
  intro m hm c hc
  by_cases hlt : m < Scalar.abs c
  · have hnonneg : 0 ≤ m := OrderedNumbers.zero_le_of (hm.imp_right And.left)
    rw [larger, if_pos hlt]
    exact .inr ⟨OrderedNumbers.lt_of_le_of_lt hnonneg hlt, c, Array.mem_toList_iff.mp hc, rfl⟩
  · rwa [larger, if_neg hlt]

theorem zero_le_largestCoordinate (x : Multivector α) : 0 ≤ x.largestCoordinate :=
  OrderedNumbers.zero_le_of (x.largestCoordinate_cases.imp_right And.left)

/-- The largest coordinate is at least the magnitude of every coordinate that is a number. -/
theorem abs_le_largestCoordinate {c : α} (hc : c ∈ x.coords) (hnumber : IsNumber c) :
    Scalar.abs c ≤ x.largestCoordinate := by
  have hself := (OrderedNumbers.isNumber_of_le (zero_le_largestCoordinate x)).2.le_refl
  exact (largestCoordinate_le_iff.mp hself).2 c hc hnumber

/-- If the largest coordinate is zero, every coordinate that is a number is zero. -/
theorem beq_zero_of_largestCoordinate (h : x.largestCoordinate = 0) {c : α} (hc : c ∈ x.coords)
    (hnumber : IsNumber c) : (c == 0) = true := by
  have hle := abs_le_largestCoordinate hc hnumber
  rwa [h, Scalar.ExactZero.abs_le_zero_iff] at hle

end Multivector

end GeometricAlgebra
