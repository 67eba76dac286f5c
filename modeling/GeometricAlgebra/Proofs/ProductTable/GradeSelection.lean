/-
  GeometricAlgebra.Proofs.ProductTable.GradeSelection

  The grades of geometric products.  Two blades that share `s` vectors lose these twice, and the
  vectors of both have to fit into the dimension; this leaves every second grade between the
  difference of their grades and the smaller of their sum and of what the dimension allows.

    * `outputGrades`: these grades, ascending.
    * `Clifford.sublist_outputGrades`: under every metric the tables list no other groups.
    * `Clifford.map_out_eq_outputGrades`: without vectors of square zero they list all of them.
    * `Clifford.gradeSelection_of_ofConfig`: the tables of every accepted algebra, and the parity of
      the grades of its products.
-/

import Mathlib.Algebra.Ring.Parity
import GeometricAlgebra.Proofs.Blade.Placements
import GeometricAlgebra.Proofs.Multivector.Duality
import GeometricAlgebra.Proofs.Multivector.GradeProjection
import GeometricAlgebra.Proofs.ProductTable.Listing

namespace GeometricAlgebra

/-- Every second grade from `|i - j|` to `min (i + j) (2 * n - i - j)`. -/
def outputGrades (n i j : Nat) : List Nat :=
  let low := max i j - min i j
  let high := min (i + j) (2 * n - i - j)
  List.range' low ((high - low) / 2 + 1) 2

/-- They are the grades of two blades that share as many vectors as fit. -/
theorem mem_outputGrades {n i j k : Nat} (hi : i ≤ n) (hj : j ≤ n) : k ∈ outputGrades n i j ↔
    ∃ s, s ≤ i ∧ s ≤ j ∧ i + j ≤ n + s ∧ k + 2 * s = i + j := by
  simp only [outputGrades, List.mem_range']
  constructor
  · rintro ⟨t, ht, rfl⟩
    exact ⟨min i j - t, by omega, by omega, by omega, by omega⟩
  · rintro ⟨s, hsi, hsj, hn, hk⟩
    exact ⟨min i j - s, by omega, by omega⟩

theorem pairwise_outputGrades (n i j : Nat) : (outputGrades n i j).Pairwise (· < ·) :=
  List.pairwise_lt_range' 2

/-- Of two ascending lists, one is a sublist of the other if that has all its elements. -/
theorem sublist_of_ascending {l l' : List Nat} (hl : l.Pairwise (· < ·)) (hl' : l'.Pairwise (· < ·))
    (h : l ⊆ l') : l.Sublist l' :=
  List.sublist_of_subperm_of_pairwise (List.subperm_of_subset (hl.imp Nat.ne_of_lt) h) hl hl'

/-- All stored grades have the property. -/
def Multivector.Stores {α : Type} (x : Multivector α) (p : Nat → Prop) : Prop :=
  ∀ g, x.grades.has g = true → p g

namespace Clifford

/-! ## Groups of the tables -/

/-- The groups of a table ascend. -/
theorem pairwise_out {α : Type} [Scalar α] {A : Clifford α} {kind : ProductKind} {i j : Nat} :
    ((A.partialProducts kind i j).map (·.out)).Pairwise (· < ·) :=
  List.pairwise_map.mpr pairwise_partialProducts

section Tables

variable {α : Type} [Scalar α] {A : Clifford α} {i j : Nat} (hT : A.table.Lawful)
  (hi : i ≤ A.table.dimension) (hj : j ≤ A.table.dimension)
include hT hi hj

/-- A listed group is one of the grades that two blades can have. -/
theorem mem_outputGrades_of_mem {k : Nat}
    (hk : k ∈ (A.partialProducts .geometric i j).map (·.out)) :
    k ∈ outputGrades A.table.dimension i j := by
  rw [List.mem_map, exists_partialProduct_iff hT hi hj] at hk
  obtain ⟨-, p, hp, q, hq, rfl, rfl, rfl, -⟩ := hk
  have hgrade := Blade.grade_xor p q
  have hleft := Blade.grade_and_le p q
  have hright := Blade.grade_and_le q p
  have hroom := Blade.grade_xor_add_grade_and_le hp hq
  rw [Nat.and_comm] at hright
  rw [mem_outputGrades hi hj]
  exact ⟨Blade.grade (p &&& q), hleft, hright, by omega, hgrade⟩

/-- Under every metric the tables list no other groups. -/
theorem sublist_outputGrades : ((A.partialProducts .geometric i j).map (·.out)).Sublist
    (outputGrades A.table.dimension i j) :=
  sublist_of_ascending pairwise_out (pairwise_outputGrades _ i j)
    fun _ => mem_outputGrades_of_mem hT hi hj

end Tables

variable {K : Type} [Field K] [LinearOrder K] {A : Clifford K}

/-- Without vectors of square zero the tables list all of these groups. -/
theorem map_out_eq_outputGrades (hT : A.table.Lawful) {i j : Nat} (hi : i ≤ A.table.dimension)
    (hj : j ≤ A.table.dimension) (hsquares : ∀ v < A.table.dimension, Blade.square A.metric v ≠ 0) :
    (A.partialProducts .geometric i j).map (·.out) = outputGrades A.table.dimension i j := by
  have hall : ∀ k ∈ outputGrades A.table.dimension i j,
      k ∈ (A.partialProducts .geometric i j).map (·.out) := by
    intro k hk
    obtain ⟨s, hsi, hsj, hn, hk⟩ := (mem_outputGrades hi hj).mp hk
    -- two blades that share `s` vectors have a product of this grade
    obtain ⟨p, hp, q, hq, rfl, rfl, rfl⟩ := Blade.exists_pair_of_overlap hsi hsj hn
    have hgrade := Blade.grade_xor p q
    have hcoefficient : Blade.coefficient A.metric p q ≠ 0 :=
      (Blade.coefficient_ne_zero_iff A.metric hp q).mpr fun v hv h => hsquares v hv h.2
    rw [List.mem_map, exists_partialProduct_iff hT hi hj]
    exact ⟨rfl, p, hp, q, hq, rfl, rfl, by omega, decide_eq_false hcoefficient⟩
  exact (sublist_outputGrades hT hi hj).antisymm
    (sublist_of_ascending (pairwise_outputGrades _ i j) pairwise_out hall)

/-! ## Parity -/

variable [IsStrictOrderedRing K] {x y : Multivector K}

/-- A grade of a product differs from the sum of two grades of the operands by an even number. -/
theorem stores_gp (hT : A.table.Lawful) {p q r : Nat → Prop} (hx : x.Stores p) (hy : y.Stores q)
    (h : ∀ i j g, p i → q j → (i + j + g) % 2 = 0 → r g) : (A.gp x y).Stores r := by
  intro g hg
  obtain ⟨i, j, hi, hj, -, -, hparity⟩ := exists_of_has_product hT hg
  exact h i j g (hx i hi) (hy j hj) hparity

/-- For every accepted algebra: the table of the geometric product of the groups `i` and `j` has
    results in the groups `|i - j|`, `|i - j| + 2` and so on to `min (i + j) (2 * n - i - j)` only,
    and in all of them unless a vector has square zero.  So products of even multivectors and of odd
    ones are even, and products of an even and an odd one are odd. -/
theorem gradeSelection_of_ofConfig {c : Config K} (h : ofConfig c = .ok A) :
    (∀ i ≤ A.dimension, ∀ j ≤ A.dimension,
      ((A.partialProducts .geometric i j).map (·.out)).Sublist (outputGrades A.dimension i j) ∧
      ((∀ s ∈ A.metric, s ≠ 0) →
        (A.partialProducts .geometric i j).map (·.out) = outputGrades A.dimension i j)) ∧
    ∀ x y : Multivector K,
      (x.Stores Even ∧ y.Stores Even ∨ x.Stores Odd ∧ y.Stores Odd → (A.gp x y).Stores Even) ∧
      (x.Stores Even ∧ y.Stores Odd ∨ x.Stores Odd ∧ y.Stores Even → (A.gp x y).Stores Odd) := by
  have hT := lawful_of_ofConfig h
  refine ⟨fun i hi j hj => ⟨sublist_outputGrades hT hi hj, fun hmetric => ?_⟩,
    fun x y => ⟨?_, ?_⟩⟩
  · refine map_out_eq_outputGrades hT hi hj fun v hv => ?_
    have hsize : v < A.metric.size := by
      rw [size_metric_of_ofConfig h]
      exact hv
    rw [Blade.square, ← Array.getElem_eq_getD (h := hsize) 1]
    exact hmetric _ (Array.getElem_mem hsize)
  · rintro (⟨hx, hy⟩ | ⟨hx, hy⟩)
    · refine stores_gp hT hx hy fun i j g hi hj hparity => ?_
      rw [Nat.even_iff] at *
      omega
    · refine stores_gp hT hx hy fun i j g hi hj hparity => ?_
      rw [Nat.odd_iff] at hi hj
      rw [Nat.even_iff]
      omega
  · rintro (⟨hx, hy⟩ | ⟨hx, hy⟩)
    · refine stores_gp hT hx hy fun i j g hi hj hparity => ?_
      rw [Nat.even_iff] at hi
      rw [Nat.odd_iff] at *
      omega
    · refine stores_gp hT hx hy fun i j g hi hj hparity => ?_
      rw [Nat.even_iff] at hj
      rw [Nat.odd_iff] at *
      omega

/-- Two bivectors of space share a vector, so their product has no grade four; a vector times an even
    multivector is odd. -/
theorem gradeSelection_turnedSpace :
    ofConfig (.hyperbolicSpace (some Config.turnedBlades)) = .ok turnedSpace ∧
    (∀ s ∈ turnedSpace.metric, s ≠ 0) ∧
    (turnedSpace.partialProducts .geometric 2 2).map (·.out) = outputGrades 3 2 2 ∧
    outputGrades 3 2 2 = [0, 2] ∧
    let x : Multivector ℚ := ⟨GradeSet.insert 0 1, #[1, 0, 2]⟩
    let y : Multivector ℚ := ⟨GradeSet.insert 1 2, #[3, 1, 0, 1]⟩
    x.Stores Odd ∧ y.Stores Even ∧ (turnedSpace.gp x y).Stores Odd ∧
      turnedSpace.gp x y = ⟨10, #[3, -3, 6, -3]⟩ := by
  have hA := ofConfig_turnedSpace
  have hmetric : ∀ s ∈ turnedSpace.metric, s ≠ 0 := by decide +kernel
  have hx : Multivector.Stores (⟨GradeSet.insert 0 1, #[1, 0, 2]⟩ : Multivector ℚ) Odd := by
    intro g hg
    have hone : g = 1 := by simpa using hg
    rw [hone]
    decide
  have hy : Multivector.Stores (⟨GradeSet.insert 1 2, #[3, 1, 0, 1]⟩ : Multivector ℚ) Even := by
    intro g hg
    have hgrade : g = 0 ∨ g = 2 := by simpa using hg
    rcases hgrade with rfl | rfl <;> decide
  obtain ⟨htable, hparity⟩ := gradeSelection_of_ofConfig hA
  exact ⟨hA, hmetric, (htable 2 (by decide) 2 (by decide)).2 hmetric, by decide, hx, hy,
    (hparity _ _).2 (.inr ⟨hx, hy⟩), by decide +kernel⟩

end Clifford

end GeometricAlgebra
