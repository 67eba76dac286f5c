/-
  GeometricAlgebra.Proofs.Multivector.DenseRoundtrip

  Dense buffers and sparse multivectors are inverse to each other up to the groups that are dropped,
  for coordinates of every kind: a group is dropped if all its coordinates are within the bound of
  zero, and what is not dropped is copied.

    * `Clifford.group?_compress_toDense`: a multivector that is written out and compressed.
    * `Clifford.compress_toDense_compress`: doing so again changes nothing.
    * `Clifford.denseRoundtrip_of_ofConfig`: the laws for every accepted algebra.
-/

import GeometricAlgebra.Proofs.ExactZero
import GeometricAlgebra.Proofs.Multivector.Entries
import GeometricAlgebra.Proofs.Numbering

namespace GeometricAlgebra.Clifford

variable {α : Type} [Scalar α] {A : Clifford α} {x : Multivector α}

/-! ## Compressed buffers -/

theorem toList_coords_compress (dense : Coordinates α) (eps : α) (mask : GradeSet) :
    (A.compress dense eps mask).coords.toList =
      (A.table.groups.filter (A.compress dense eps mask).grades.has).flatMap fun g =>
        (A.denseGroup dense g).toList := by
  rw [compress_eq]
  exact GradeTable.toList_assemble

/-! ## Grades with large coordinates -/

theorem has_gradesAbove (hx : x.WellFormed A) (eps : α) (g : Nat) :
    (A.gradesAbove x eps).has g =
      (x.grades.has g && !((A.group? x g).getD #[]).isZero eps) := by
  have hinsert : (fun (s : GradeSet) g =>
        if ((A.group? x g).getD #[]).isZero eps then s else s.insert g) =
      fun s g => if !((A.group? x g).getD #[]).isZero eps then s.insert g else s := by
    funext s k
    cases ((A.group? x k).getD #[]).isZero eps <;> rfl
  have hmem : decide (g ∈ A.table.groups.filter x.grades.has) = x.grades.has g := by
    rw [Bool.eq_iff_iff, decide_eq_true_iff, List.mem_filter, GradeTable.mem_groups]
    exact and_iff_right_of_imp hx.le
  rw [gradesAbove, storedGroups_eq, List.foldl_map, hinsert, GradeSet.has_foldl_insert, hmem,
    GradeSet.has_zero, Bool.false_or]

/-! ## Multivectors, written out and compressed -/

section Roundtrip

variable [Scalar.ExactZero α] (hT : A.table.Lawful) (hx : x.WellFormed A)
include hT hx

/-- Of a multivector that is written out, the groups above the bound are kept. -/
theorem has_keptGrades_toDense {eps : α} (heps : 0 ≤ eps) (mask : GradeSet) (g : Nat) :
    (A.keptGrades (A.toDense x) eps mask).has g =
      (x.grades.has g && !((A.group? x g).getD #[]).isZero eps && mask.has g) := by
  rw [has_keptGrades]
  by_cases hg : g ≤ A.table.dimension
  · rw [denseGroup_toDense hT hx hg]
    cases hs : x.grades.has g with
    | true => simp [hg, group?_of_has hs, Bool.and_comm]
    | false => simp [group?_of_not_has hs, Coordinates.isZero_zeros _ heps]
  · simp [hg, Bool.eq_false_iff.mpr fun hs => hg (hx.le hs)]

theorem grades_compress_toDense {eps : α} (heps : 0 ≤ eps) (mask : GradeSet) :
    (A.compress (A.toDense x) eps mask).grades = A.gradesAbove x eps &&& mask := by
  apply GradeSet.ext_has
  intro g
  rw [compress_eq, has_keptGrades_toDense hT hx heps, GradeSet.has_and, has_gradesAbove hx]

/-- Writing a multivector out and compressing it drops its zero groups and keeps the others. -/
theorem group?_compress_toDense (g : Nat) :
    A.group? (A.compress (A.toDense x) 0 A.table.fullSet) g =
      (A.group? x g).filter fun c => !c.all (· == 0) := by
  rw [group?_compress hT (size_toDense hT hx).ge,
    has_keptGrades_toDense hT hx Scalar.ExactZero.zero_le_zero]
  cases hs : x.grades.has g with
  | false => simp [group?_of_not_has hs]
  | true =>
    have hg := hx.le hs
    rw [denseGroup_toDense hT hx hg, GradeTable.has_fullSet.mpr hg, group?_of_has hs]
    simp [Coordinates.isZero_zero, Option.filter_some]

/-- A multivector without zero groups comes back unchanged. -/
theorem compress_toDense_compress :
    A.compress (A.toDense (A.compress (A.toDense x) 0 A.table.fullSet)) 0 A.table.fullSet =
      A.compress (A.toDense x) 0 A.table.fullSet := by
  have hy := wellFormed_compress hT (size_toDense hT hx).ge 0 A.table.fullSet
  apply (wellFormed_compress hT (size_toDense hT hy).ge 0 A.table.fullSet).ext hy
  intro g _
  rw [group?_compress_toDense hT hy, group?_compress_toDense hT hx, Option.filter_filter]
  simp

end Roundtrip

/-- For every accepted algebra, whatever the coordinates: of a dense buffer, the groups of the mask
    with a coordinate not within the bound of zero are stored, unchanged and in ascending grade, and
    written out again they are where they were, with zeros elsewhere.  A multivector that is written
    out and compressed loses its zero groups and nothing else, so that doing it again changes
    nothing; and whatever the bound and the mask, the grades kept are those of the mask with a
    coordinate above the bound. -/
theorem denseRoundtrip_of_ofConfig [Scalar.ExactZero α] {c : Config α} (h : ofConfig c = .ok A) :
    (∀ dense : Coordinates α, dense.size = 2 ^ A.dimension → ∀ (eps : α) (mask : GradeSet),
      let x := A.compress dense eps mask
      (∀ g, x.grades.has g = true ↔ g ≤ A.dimension ∧ mask.has g = true ∧
          ∃ r < 2 ^ A.dimension, A.table.gradeOf r = g ∧
            ¬ Scalar.abs (dense.getD r 0) ≤ eps) ∧
        x.coords.toList = (A.table.groups.filter x.grades.has).flatMap
          (fun g => (A.denseGroup dense g).toList) ∧
        (A.toDense x).size = 2 ^ A.dimension ∧
        ∀ r < 2 ^ A.dimension, (A.toDense x).getD r 0 =
          if x.grades.has (A.table.gradeOf r) then dense.getD r 0 else 0) ∧
    ∀ x : Multivector α, x.WellFormed A →
      (∃ y, A.ofDense (A.toDense x) = .ok y ∧ y.WellFormed A ∧
        (∀ g, A.group? y g = (A.group? x g).filter fun c => !c.all (· == 0)) ∧
        A.ofDense (A.toDense y) = .ok y) ∧
      ∀ (eps : α) (mask : GradeSet), 0 ≤ eps →
        (A.compress (A.toDense x) eps mask).grades = A.gradesAbove x eps &&& mask := by
  have hT := lawful_of_ofConfig h
  constructor
  · intro dense hsize eps mask
    have hd : dense.size = A.table.denseSize := hsize.trans hT.denseSize_eq.symm
    have hx := wellFormed_compress hT hd.ge eps mask
    exact ⟨has_grades_compress hT hd eps mask, toList_coords_compress dense eps mask,
      (size_toDense hT hx).trans hT.denseSize_eq, fun r hr => entry_compress_eq hT hd eps mask hr⟩
  · intro x hx
    have hy := wellFormed_compress hT (size_toDense hT hx).ge 0 A.table.fullSet
    refine ⟨⟨A.compress (A.toDense x) 0 A.table.fullSet, ?_, hy, group?_compress_toDense hT hx, ?_⟩,
      fun eps mask heps => grades_compress_toDense hT hx heps mask⟩
    · exact ofDense_eq_ok_iff.mpr ⟨size_toDense hT hx, rfl⟩
    · exact ofDense_eq_ok_iff.mpr ⟨size_toDense hT hy, (compress_toDense_compress hT hx).symm⟩

/-- Space over floating point numbers. -/
def space : Clifford Float where
  config := Config.e3ga
  table := .ofOrder 3 [[], [0], [1], [2], [0, 1], [1, 2], [2, 0], [0, 1, 2]]
  metric := #[1, 1, 1]

theorem ofConfig_space : ofConfig Config.e3ga = .ok space :=
  ofConfig_eq_ok_iff.mpr ⟨_, by decide +kernel, rfl⟩

/-- A buffer of which the scalar is small, and a multivector of which the vector is zero; what is not
    a number keeps its group. -/
theorem denseRoundtrip_space : ofConfig Config.e3ga = .ok space ∧
    let dense : Coordinates Float := #[0.5, 1, 0, -0, 0 / 0, 2, 0, 3]
    let x : Multivector Float := ⟨7, #[1, 0, -0, 0, 0 / 0, 2, 0]⟩
    dense.size = 2 ^ space.dimension ∧ x.WellFormed space ∧
      (∀ r < 2 ^ space.dimension, (space.toDense (space.compress dense 1 13)).getD r 0 =
        if (space.compress dense 1 13).grades.has (space.table.gradeOf r) then dense.getD r 0
        else 0) ∧
      space.compress dense 1 13 = ⟨12, #[0 / 0, 2, 0, 3]⟩ ∧
      (∃ y, space.ofDense (space.toDense x) = .ok y ∧ y.WellFormed space ∧
        (∀ g, space.group? y g = (space.group? x g).filter fun c => !c.all (· == 0)) ∧
        space.ofDense (space.toDense y) = .ok y) ∧
      space.ofDense (space.toDense x) = .ok ⟨5, #[1, 0 / 0, 2, 0]⟩ ∧
      (space.compress (space.toDense x) 1 5).grades = space.gradesAbove x 1 &&& 5 ∧
      space.gradesAbove x 1 = 4 := by
  have hcoords : space.ofCoords 7 #[1, 0, -0, 0, 0 / 0, 2, 0] =
      .ok ⟨7, #[1, 0, -0, 0, 0 / 0, 2, 0]⟩ := by decide +kernel
  have hx := wellFormed_ofCoords hcoords
  obtain ⟨hdense, hsparse⟩ := denseRoundtrip_of_ofConfig ofConfig_space
  obtain ⟨-, -, -, hentry⟩ := hdense #[0.5, 1, 0, -0, 0 / 0, 2, 0, 3] rfl 1 13
  obtain ⟨hroundtrip, hgrades⟩ := hsparse _ hx
  exact ⟨ofConfig_space, rfl, hx, hentry, by decide +kernel, hroundtrip, by decide +kernel,
    hgrades 1 5 (by decide), by decide +kernel⟩

end GeometricAlgebra.Clifford
