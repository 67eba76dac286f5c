/-
  GeometricAlgebra.Proofs.Multivector.LargestBlade

  The blade of the largest coordinate.  The scan walks the stored groups and turns each place into a
  dense index and a blade; groups that are not stored hold zeros, which are never larger, so it is the
  scan of all entries in dense order.

    * `Clifford.fst_largestBlade`: the largest coordinate, with and without its blade.
    * `Clifford.largestBlade_eq_scanEntries`: the scan of the stored groups and that of all entries.
    * `Clifford.FirstLargest`: what the scan has found after some of the entries.
    * `Clifford.largestBlade_of_ofConfig`: the laws for every accepted algebra.
-/

import GeometricAlgebra.Proofs.Multivector.DenseRoundtrip
import GeometricAlgebra.Proofs.Multivector.LargestCoordinate

namespace GeometricAlgebra.Clifford

open Scalar (IsNumber OrderedNumbers)

variable {α : Type} [Scalar α] {A : Clifford α} {x : Multivector α}

/-! ## The scan -/

/-- One place of the scan: a magnitude above the best one so far replaces it, with the blade of the
    place. -/
def scanPlace (A : Clifford α) (best : α × Blade) (p : α × Nat) : α × Blade :=
  if best.1 < Scalar.abs p.1 then (Scalar.abs p.1, A.table.blade p.2) else best

theorem largestBlade_eq (x : Multivector α) :
    A.largestBlade x = (A.stored x).foldl A.scanPlace (0, 0) := rfl

theorem scanPlace_of_lt {best : α × Blade} {c : α} (h : best.1 < Scalar.abs c) (i : Nat) :
    A.scanPlace best (c, i) = (Scalar.abs c, A.table.blade i) := if_pos h

theorem scanPlace_of_not_lt {best : α × Blade} {c : α} (h : ¬ best.1 < Scalar.abs c) (i : Nat) :
    A.scanPlace best (c, i) = best := if_neg h

/-- The value of the best place does not depend on the blades. -/
theorem fst_scanPlace (best : α × Blade) (p : α × Nat) :
    (A.scanPlace best p).1 = Scalar.larger best.1 (Scalar.abs p.1) := by
  obtain ⟨c, i⟩ := p
  by_cases hlt : best.1 < Scalar.abs c
  · rw [scanPlace_of_lt hlt, Scalar.larger, if_pos hlt]
  · rw [scanPlace_of_not_lt hlt, Scalar.larger, if_neg hlt]

/-- The largest coordinate, with and without its blade. -/
theorem fst_largestBlade (hx : x.WellFormed A) :
    (A.largestBlade x).1 = x.largestCoordinate := by
  rw [Multivector.largestCoordinate, ← Array.foldl_toList, ← map_fst_stored hx, List.foldl_map]
  exact (List.foldl_hom Prod.fst fun best p => (fst_scanPlace best p).symm).symm

/-- The scan of the first `m` entries. -/
def scanEntries (A : Clifford α) (x : Multivector α) (m : Nat) : α × Blade :=
  (List.range m).foldl (fun best r => A.scanPlace best (A.entry x r, r)) (0, 0)

theorem scanEntries_succ (x : Multivector α) (m : Nat) :
    A.scanEntries x (m + 1) = A.scanPlace (A.scanEntries x m) (A.entry x m, m) := by
  rw [scanEntries, List.range_succ, List.foldl_append]
  rfl

variable [OrderedNumbers α]

/-- Places without a positive magnitude are passed over. -/
theorem foldl_scanPlace_filter (ps : List (α × Nat)) {best : α × Blade} (hbest : 0 ≤ best.1) :
    (ps.filter fun p => 0 < Scalar.abs p.1).foldl A.scanPlace best = ps.foldl A.scanPlace best := by
  induction ps generalizing best with
  | nil => rfl
  | cons p ps ih =>
    by_cases hpos : 0 < Scalar.abs p.1
    · rw [List.filter_cons_of_pos (by simpa using hpos), List.foldl_cons, List.foldl_cons, ih]
      rw [fst_scanPlace, Scalar.larger]
      split
      · exact OrderedNumbers.le_of_lt hpos
      · exact hbest
    · have hskip : A.scanPlace best p = best :=
        scanPlace_of_not_lt (fun hlt => hpos (OrderedNumbers.lt_of_le_of_lt hbest hlt)) p.2
      rw [List.filter_cons_of_neg (by simpa using hpos), List.foldl_cons, hskip, ih hbest]

/-- Without the places that are passed over, the stored coordinates and all entries are the same. -/
theorem filter_stored (hT : A.table.Lawful) (hx : x.WellFormed A) :
    (A.stored x).filter (fun p => 0 < Scalar.abs p.1) =
      ((List.range (2 ^ A.table.dimension)).map fun r => (A.entry x r, r)).filter
        fun p => 0 < Scalar.abs p.1 := by
  have hzero : ¬ (0 : α) < Scalar.abs 0 := by
    rw [Scalar.ExactZero.abs_zero]
    exact OrderedNumbers.lt_irrefl 0
  rw [← List.filterMap_eq_filter, filterMap_stored hT hx fun r => ?_, List.filterMap_map]
  · rfl
  · exact Option.guard_eq_none_iff.mpr (decide_eq_false hzero)

/-- The scan of the stored groups is the scan of all entries. -/
theorem largestBlade_eq_scanEntries (hT : A.table.Lawful) (hx : x.WellFormed A) :
    A.largestBlade x = A.scanEntries x (2 ^ A.table.dimension) := by
  have hzero : (0 : α) ≤ 0 := Scalar.isNumber_zero.le_refl
  rw [largestBlade_eq, ← foldl_scanPlace_filter _ hzero, filter_stored hT hx,
    foldl_scanPlace_filter _ hzero, List.foldl_map]
  rfl

/-! ## What the scan finds -/

/-- Of the first `m` entries, `best` has the largest magnitude, with the blade of the first entry that
    has it; if there is no positive magnitude, it is zero with the scalar blade. -/
structure FirstLargest (A : Clifford α) (x : Multivector α) (m : Nat) (best : α × Blade) : Prop where
  abs_le : ∀ r < m, IsNumber (A.entry x r) → Scalar.abs (A.entry x r) ≤ best.1
  found : best = (0, 0) ∨ 0 < best.1 ∧ ∃ i < m,
    best = (Scalar.abs (A.entry x i), A.table.blade i) ∧
      ∀ r < i, Scalar.abs (A.entry x r) ≠ Scalar.abs (A.entry x i)

namespace FirstLargest

variable {m : Nat} {best : α × Blade}

theorem zero_le (h : A.FirstLargest x m best) : 0 ≤ best.1 :=
  OrderedNumbers.zero_le_of (h.found.imp (congrArg Prod.fst) And.left)

/-- One more place keeps what has been found. -/
theorem scanPlace (h : A.FirstLargest x m best) :
    A.FirstLargest x (m + 1) (A.scanPlace best (A.entry x m, m)) := by
  by_cases hlt : best.1 < Scalar.abs (A.entry x m)
  · -- the new magnitude is above those before it, so it is none of them
    have hle := OrderedNumbers.le_of_lt hlt
    have habs := (OrderedNumbers.isNumber_of_le hle).2
    have hpos := OrderedNumbers.lt_of_le_of_lt h.zero_le hlt
    rw [scanPlace_of_lt hlt]
    refine ⟨fun r hr hnumber => ?_, .inr ⟨hpos, m, Nat.lt_succ_self m, rfl, fun r hr heq => ?_⟩⟩
    · rcases Nat.lt_succ_iff_lt_or_eq.mp hr with hr | rfl
      · exact OrderedNumbers.le_trans (h.abs_le r hr hnumber) hle
      · exact habs.le_refl
    · rw [← heq, OrderedNumbers.isNumber_abs] at habs
      rw [← heq] at hlt
      exact OrderedNumbers.not_le_of_lt hlt (h.abs_le r hr habs)
  · have hbest := (OrderedNumbers.isNumber_of_le h.zero_le).2
    rw [scanPlace_of_not_lt hlt]
    refine ⟨fun r hr hnumber => ?_, ?_⟩
    · rcases Nat.lt_succ_iff_lt_or_eq.mp hr with hr | rfl
      · exact h.abs_le r hr hnumber
      · exact hbest.le_of_not_lt ((OrderedNumbers.isNumber_abs _).mpr hnumber) hlt
    · refine h.found.imp_right fun ⟨hpos, i, hi, hfirst⟩ => ?_
      exact ⟨hpos, i, Nat.lt_succ_of_lt hi, hfirst⟩

theorem scanEntries (x : Multivector α) (m : Nat) : A.FirstLargest x m (A.scanEntries x m) := by
  induction m with
  | zero => exact ⟨fun r hr => absurd hr (Nat.not_lt_zero r), .inl rfl⟩
  | succ m ih =>
    rw [scanEntries_succ]
    exact ih.scanPlace

end FirstLargest

theorem firstLargest_largestBlade (hT : A.table.Lawful) (hx : x.WellFormed A) :
    A.FirstLargest x (2 ^ A.table.dimension) (A.largestBlade x) := by
  rw [largestBlade_eq_scanEntries hT hx]
  exact .scanEntries x _

/-- A positive largest coordinate is that of the first blade in dense order with its magnitude. -/
theorem first_largestBlade (hT : A.table.Lawful) (hx : x.WellFormed A)
    (hpos : 0 < (A.largestBlade x).1) :
    (A.largestBlade x).2 < 2 ^ A.table.dimension ∧
      Scalar.abs (A.coordinate x (A.largestBlade x).2) = (A.largestBlade x).1 ∧
      ∀ b < 2 ^ A.table.dimension, Scalar.abs (A.coordinate x b) = (A.largestBlade x).1 →
        A.table.index (A.largestBlade x).2 ≤ A.table.index b := by
  rcases (firstLargest_largestBlade hT hx).found with hnone | ⟨-, i, hi, hbest, hfirst⟩
  · rw [hnone] at hpos
    exact absurd hpos (OrderedNumbers.lt_irrefl 0)
  · rw [hbest]
    refine ⟨hT.blade_lt i hi, by rw [← entry_eq_coordinate hT hx hi], fun b hb habs => ?_⟩
    rw [coordinate_eq_entry hT hx hb] at habs
    rw [hT.index_blade i hi]
    exact Nat.le_of_not_lt fun hlt => hfirst _ hlt habs

/-- For every accepted algebra, whatever the coordinates: the scan with blades finds the largest
    coordinate, which is at least the magnitude of every coordinate that is a number.  If it is
    positive, it is the magnitude of the coordinate at the blade that is found, the first one in
    dense order with that magnitude; otherwise it is zero, the blade is the scalar, and every
    coordinate is zero or not a number. -/
theorem largestBlade_of_ofConfig {c : Config α} (h : ofConfig c = .ok A) (hx : x.WellFormed A) :
    let v := (A.largestBlade x).1
    let b := (A.largestBlade x).2
    v = x.largestCoordinate ∧
      (∀ c ∈ x.coords, IsNumber c → Scalar.abs c ≤ v) ∧
      (v = 0 ∨ 0 < v) ∧
      (0 < v → b < 2 ^ A.dimension ∧ Scalar.abs (A.coordinate x b) = v ∧
        ∀ b' < 2 ^ A.dimension, Scalar.abs (A.coordinate x b') = v →
          A.table.index b ≤ A.table.index b') ∧
      (v = 0 → b = 0 ∧ ∀ c ∈ x.coords, (c == 0) = true ∨ ¬ IsNumber c) := by
  have hT := lawful_of_ofConfig h
  intro v b
  have hv : v = x.largestCoordinate := fst_largestBlade hx
  refine ⟨hv, fun c hc hnumber => ?_, ?_, first_largestBlade hT hx, fun hzero => ⟨?_, ?_⟩⟩
  · rw [hv]
    exact Multivector.abs_le_largestCoordinate hc hnumber
  · rw [hv]
    exact x.largestCoordinate_cases.imp_right And.left
  · rcases (firstLargest_largestBlade hT hx).found with hnone | ⟨hpos, -⟩
    · exact congrArg Prod.snd hnone
    · rw [show (A.largestBlade x).1 = 0 from hzero] at hpos
      exact absurd hpos (OrderedNumbers.lt_irrefl 0)
  · intro c hc
    refine or_iff_not_imp_right.mpr fun hnumber => ?_
    exact Multivector.beq_zero_of_largestCoordinate (hv.symm.trans hzero) hc (not_not.mp hnumber)

/-- Two bivectors are infinite, the first one of them against the sign of the other, and what is not a
    number comes before both; a scalar zero with a minus and what is not a number leave nothing to
    find. -/
theorem largestBlade_space : ofConfig Config.e3ga = .ok space ∧
    let x : Multivector Float := ⟨6, #[0 / 0, -2, 0, 1, -1 / 0, 1 / 0]⟩
    let y : Multivector Float := ⟨9, #[-0, 0 / 0]⟩
    x.WellFormed space ∧ y.WellFormed space ∧
      (space.largestBlade x).1 = x.largestCoordinate ∧
      (-2 ∈ x.coords ∧ IsNumber (-2 : Float) ∧ Scalar.abs (-2) ≤ (space.largestBlade x).1) ∧
      (0 < (space.largestBlade x).1 ∧
        Scalar.abs (space.coordinate x (space.largestBlade x).2) = (space.largestBlade x).1 ∧
        ∀ b < 2 ^ space.dimension, Scalar.abs (space.coordinate x b) = (space.largestBlade x).1 →
          space.table.index (space.largestBlade x).2 ≤ space.table.index b) ∧
      space.largestBlade x = (1 / 0, 6) ∧
      ((space.largestBlade y).1 = 0 ∧ (space.largestBlade y).2 = 0 ∧
        ∀ c ∈ y.coords, (c == 0) = true ∨ ¬ IsNumber c) := by
  have hx : Multivector.WellFormed space ⟨6, #[0 / 0, -2, 0, 1, -1 / 0, 1 / 0]⟩ := by decide +kernel
  have hy : Multivector.WellFormed space ⟨9, #[-0, 0 / 0]⟩ := by decide +kernel
  obtain ⟨hvalue, hle, -, hfirst, -⟩ := largestBlade_of_ofConfig ofConfig_space hx
  obtain ⟨-, -, -, -, hnone⟩ := largestBlade_of_ofConfig ofConfig_space hy
  have hpos : 0 < (space.largestBlade ⟨6, #[0 / 0, -2, 0, 1, -1 / 0, 1 / 0]⟩).1 := by decide +kernel
  have hzero : (space.largestBlade ⟨9, #[-0, 0 / 0]⟩).1 = 0 := by decide +kernel
  have hmem : (-2 : Float) ∈ #[0 / 0, -2, 0, 1, -1 / 0, 1 / 0] := by simp
  have hnumber : IsNumber (-2 : Float) := by decide +kernel
  exact ⟨ofConfig_space, hx, hy, hvalue, ⟨hmem, hnumber, hle _ hmem hnumber⟩,
    ⟨hpos, (hfirst hpos).2⟩, by decide +kernel, hzero, hnone hzero⟩

end GeometricAlgebra.Clifford
