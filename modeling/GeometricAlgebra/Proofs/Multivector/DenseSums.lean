/-
  GeometricAlgebra.Proofs.Multivector.DenseSums

  Sums over the places of a dense buffer, and buffers that are filled by adding to places.

    * `Coordinates.getD_foldl_add`: an entry after a fold is the old entry plus what each step
      adds to it.
    * `GradeTable.Lawful.sum_dense`, `GradeTable.Lawful.sum_blade`: a sum over all places or over all
      blades, group by group.
    * `Clifford.sum_storedGroups`: a sum over stored groups is a sum over all groups, where the
      others count as zero.
-/

import Mathlib.Algebra.BigOperators.Intervals
import GeometricAlgebra.Proofs.Exact
import GeometricAlgebra.Proofs.Multivector.Dense

namespace GeometricAlgebra

variable {M : Type} [AddCommMonoid M]

theorem sum_map_range (n : Nat) (f : Nat → M) :
    ((List.range n).map f).sum = ∑ i ∈ Finset.range n, f i := by
  rw [Finset.sum_eq_multiset_sum, Finset.range_val, Multiset.range, Multiset.map_coe,
    Multiset.sum_coe]

theorem sum_map_filter {β : Type} (l : List β) (p : β → Bool) (f : β → M) :
    ((l.filter p).map f).sum = (l.map fun b => if p b then f b else 0).sum := by
  induction l with
  | nil => rfl
  | cons b l ih => cases hb : p b <;> simp [hb, ih]

theorem sum_map_filterMap {β γ : Type} (l : List β) (p : β → Option γ) (f : γ → M) :
    ((l.filterMap p).map f).sum = (l.map fun b => ((p b).map f).getD 0).sum := by
  induction l with
  | nil => rfl
  | cons b l ih => cases hb : p b <;> simp [hb, ih]

theorem sum_map_flatMap {β γ : Type} (l : List β) (p : β → List γ) (f : γ → M) :
    ((l.flatMap p).map f).sum = (l.map fun b => ((p b).map f).sum).sum := by
  induction l with
  | nil => rfl
  | cons b l ih => simp [ih]

/-! ## Sums over groups -/

/-- A sum over all places of a dense buffer, group by group. -/
theorem GradeTable.Lawful.sum_dense {T : GradeTable} (hT : T.Lawful) (f : Nat → M) :
    ∑ p ∈ Finset.range (2 ^ T.dimension), f p = ∑ g ∈ Finset.range T.numGroups,
      ∑ a ∈ Finset.range (T.groupSize g), f (T.denseStart g + a) := by
  -- the places before group `m` are those of the groups below it
  have hupto : ∀ m ≤ T.numGroups,
      ∑ p ∈ Finset.range (∑ k ∈ Finset.range m, T.dimension.choose k), f p =
        ∑ g ∈ Finset.range m, ∑ a ∈ Finset.range (T.groupSize g), f (T.denseStart g + a) := by
    intro m hm
    induction m with
    | zero => rfl
    | succ m ih =>
      rw [Finset.sum_range_succ, Finset.sum_range_add, ih (Nat.le_of_succ_le hm),
        Finset.sum_range_succ, hT.groupSize_eq, hT.denseStart_eq m (Nat.le_of_lt_succ hm)]
  rw [← Nat.sum_range_choose]
  exact hupto T.numGroups (Nat.le_refl _)

/-- A sum over dense indices is a sum over canonical blades. -/
theorem GradeTable.Lawful.sum_index {T : GradeTable} (hT : T.Lawful) (f : Nat → M) :
    ∑ p ∈ Finset.range (2 ^ T.dimension), f p =
      ∑ b ∈ Finset.range (2 ^ T.dimension), f (T.index b) := by
  refine Finset.sum_nbij' T.blade T.index ?_ ?_ ?_ ?_ ?_
  · exact fun p hp => Finset.mem_range.mpr (hT.blade_lt p (Finset.mem_range.mp hp))
  · exact fun b hb => Finset.mem_range.mpr (hT.index_lt b (Finset.mem_range.mp hb))
  · exact fun p hp => hT.index_blade p (Finset.mem_range.mp hp)
  · exact fun b hb => hT.blade_index b (Finset.mem_range.mp hb)
  · intro p hp
    rw [hT.index_blade p (Finset.mem_range.mp hp)]

/-- A sum over canonical blades, group by group. -/
theorem GradeTable.Lawful.sum_blade {T : GradeTable} (hT : T.Lawful) (f : Nat → M) :
    ∑ b ∈ Finset.range (2 ^ T.dimension), f b = ∑ g ∈ Finset.range T.numGroups,
      ∑ a ∈ Finset.range (T.groupSize g), f (T.blade (T.denseStart g + a)) := by
  rw [← hT.sum_dense fun p => f (T.blade p), hT.sum_index fun p => f (T.blade p)]
  refine Finset.sum_congr rfl fun b hb => ?_
  rw [hT.blade_index b (Finset.mem_range.mp hb)]

/-! ## Adding to places -/

variable {K : Type} [Field K]

namespace Coordinates

theorem getD_modify_add {d : Coordinates K} {i r : Nat} {v : K} (hr : r < d.size) :
    (d.modify i (· + v)).getD r 0 = d.getD r 0 + if i = r then v else 0 := by
  by_cases hi : i = r
  · simp [Array.getD_eq_getD_getElem?, Array.getElem_modify, hi, hr]
  · simp [Array.getD_eq_getD_getElem?, Array.getElem_modify, hi, hr]

/-- An entry after a fold is the old entry plus what each step adds to it. -/
theorem getD_foldl_add {β : Type} {step : Coordinates K → β → Coordinates K} {v : β → K} {r : Nat}
    {bs : List β} (hsize : ∀ d b, (step d b).size = d.size)
    (hstep : ∀ d, ∀ b ∈ bs, r < d.size → (step d b).getD r 0 = d.getD r 0 + v b)
    {d : Coordinates K} (hr : r < d.size) :
    (bs.foldl step d).getD r 0 = d.getD r 0 + (bs.map v).sum := by
  induction bs generalizing d with
  | nil => simp
  | cons b bs ih =>
    rw [List.foldl_cons, ih (fun d b hb => hstep d b (List.mem_cons_of_mem _ hb)) (by rwa [hsize]),
      hstep d b List.mem_cons_self hr, List.map_cons, List.sum_cons, add_assoc]

end Coordinates

namespace Clifford

variable {A : Clifford K} {x : Multivector K}

/-- Groups that are not stored count as zero in a sum. -/
theorem sum_storedGroups (x : Multivector K) {f : Nat → Coordinates K → K}
    (hf : ∀ g, f g #[] = 0) : ((A.storedGroups x).map fun p => f p.1 p.2).sum =
      ∑ g ∈ Finset.range A.table.numGroups, f g ((A.group? x g).getD #[]) := by
  rw [storedGroups_eq, List.map_map, sum_map_filter, GradeTable.groups, sum_map_range]
  refine Finset.sum_congr rfl fun g _ => ?_
  cases hg : x.grades.has g with
  | true => simp
  | false => simp [group?_of_not_has hg, hf]

end Clifford

end GeometricAlgebra
