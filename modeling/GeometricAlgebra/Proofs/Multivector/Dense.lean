/-
  GeometricAlgebra.Proofs.Multivector.Dense

  Dense buffers and the multivectors compressed from them.

    * `Clifford.denseGroup_toDense`: a dense buffer holds every stored group in its place and
      zeros elsewhere.
    * `Clifford.compress_eq`: a compressed buffer is assembled from the groups that are kept.
    * `Clifford.wellFormed_compress`: whatever a dense buffer holds, compressing it gives a
      well-formed multivector.
-/

import GeometricAlgebra.Multivector.Dual
import GeometricAlgebra.Multivector.Product
import GeometricAlgebra.Proofs.Multivector.Writing

namespace GeometricAlgebra

namespace Clifford

variable {α : Type} {A : Clifford α} {x : Multivector α}

/-! ## Groups of a dense buffer -/

theorem size_denseGroup (hT : A.table.Lawful) {dense : Coordinates α}
    (hd : A.table.denseSize ≤ dense.size) {g : Nat} (hg : g ≤ A.table.dimension) :
    (A.denseGroup dense g).size = A.table.groupSize g := by
  have hle := hT.denseStart_add_groupSize_le hg
  rw [← hT.denseSize_eq] at hle
  rw [denseGroup, Array.size_extract]
  omega

variable [Scalar α]

theorem toDense_eq (x : Multivector α) : A.toDense x = A.table.assemble A.table.fullSet
    fun g => (A.group? x g).getD (Coordinates.zeros (A.table.groupSize g)) := by
  rw [GradeTable.assemble, GradeTable.filter_fullSet]
  rfl

theorem size_toDense (hT : A.table.Lawful) (hx : x.WellFormed A) :
    (A.toDense x).size = A.table.denseSize := by
  rw [toDense_eq, GradeTable.size_assemble fun g _ _ => size_getD_zeros hx g, hT.size_fullSet]

/-- A dense buffer holds every stored group in its place and zeros elsewhere. -/
theorem denseGroup_toDense (hT : A.table.Lawful) (hx : x.WellFormed A) {g : Nat}
    (hg : g ≤ A.table.dimension) : A.denseGroup (A.toDense x) g =
      (A.group? x g).getD (Coordinates.zeros (A.table.groupSize g)) := by
  have hslice := GradeTable.extract_assemble (fun g _ _ => size_getD_zeros hx g) hg
    (GradeTable.has_fullSet.mpr hg)
  rwa [← toDense_eq, hT.offset_fullSet hg] at hslice

/-! ## Compressing -/

/-- The grades that a compressed buffer keeps. -/
def keptGrades (A : Clifford α) (dense : Coordinates α) (eps : α) (mask : GradeSet) : GradeSet :=
  A.table.groups.foldl
    (fun s g => if mask.has g && !(A.denseGroup dense g).isZero eps then s.insert g else s) 0

theorem has_keptGrades (dense : Coordinates α) (eps : α) (mask : GradeSet) (g : Nat) :
    (A.keptGrades dense eps mask).has g =
      (decide (g ≤ A.table.dimension) && (mask.has g && !(A.denseGroup dense g).isZero eps)) := by
  rw [keptGrades, GradeSet.has_foldl_insert, GradeSet.has_zero, Bool.false_or]
  simp [GradeTable.mem_groups]

/-- A compressed buffer is assembled from the groups that are kept. -/
theorem compress_eq (dense : Coordinates α) (eps : α) (mask : GradeSet) :
    A.compress dense eps mask = ⟨A.keptGrades dense eps mask,
      A.table.assemble (A.keptGrades dense eps mask) (A.denseGroup dense)⟩ := by
  -- one fold collects grades and coordinates at once; taken apart, it is two folds
  have hfold : ∀ (p : Nat → Bool) (gs : List Nat) (s : GradeSet) (cs : Coordinates α),
      gs.foldl (fun (x : Multivector α) g =>
        if p g then ⟨x.grades.insert g, x.coords ++ A.denseGroup dense g⟩ else x) ⟨s, cs⟩ =
      ⟨gs.foldl (fun s g => if p g then s.insert g else s) s,
        (gs.filter p).foldl (fun cs g => cs ++ A.denseGroup dense g) cs⟩ := by
    intro p gs
    induction gs with
    | nil => intros; rfl
    | cons g gs ih =>
      intro s cs
      cases hp : p g with
      | true => simp [hp, ih]
      | false => simp [hp, ih]
  have hfilter : A.table.groups.filter (A.keptGrades dense eps mask).has =
      A.table.groups.filter fun g => mask.has g && !(A.denseGroup dense g).isZero eps :=
    List.filter_congr fun g hg => by simp [has_keptGrades, GradeTable.mem_groups.mp hg]
  rw [GradeTable.assemble, hfilter]
  exact hfold _ A.table.groups 0 #[]

theorem le_of_has_keptGrades {dense : Coordinates α} {eps : α} {mask : GradeSet} (g : Nat)
    (hg : (A.keptGrades dense eps mask).has g = true) : g ≤ A.table.dimension := by
  rw [has_keptGrades, Bool.and_eq_true, decide_eq_true_eq] at hg
  exact hg.1

section Compress

variable (hT : A.table.Lawful) {dense : Coordinates α} (hd : A.table.denseSize ≤ dense.size)
include hT hd

/-- Whatever a dense buffer holds, compressing it gives a well-formed multivector. -/
theorem wellFormed_compress (eps : α) (mask : GradeSet) :
    (A.compress dense eps mask).WellFormed A := by
  rw [compress_eq]
  exact wellFormed_assemble le_of_has_keptGrades fun g hg _ => size_denseGroup hT hd hg

theorem group?_compress (eps : α) (mask : GradeSet) (g : Nat) :
    A.group? (A.compress dense eps mask) g =
      if (A.keptGrades dense eps mask).has g then some (A.denseGroup dense g) else none := by
  rw [compress_eq]
  exact group?_assemble le_of_has_keptGrades (fun g hg _ => size_denseGroup hT hd hg) g

end Compress

theorem size_denseZeros : (A.denseZeros).size = A.table.denseSize := Array.size_replicate

theorem ofDense_eq_ok_iff {dense : Coordinates α} : A.ofDense dense = .ok x ↔
    dense.size = A.table.denseSize ∧ x = A.compress dense 0 A.table.fullSet := by
  unfold ofDense
  by_cases hsize : dense.size = A.table.denseSize
  · simp [hsize, eq_comm]
  · simp [hsize]

theorem wellFormed_ofDense (hT : A.table.Lawful) {dense : Coordinates α}
    (h : A.ofDense dense = .ok x) : x.WellFormed A := by
  obtain ⟨hsize, rfl⟩ := ofDense_eq_ok_iff.mp h
  exact wellFormed_compress hT hsize.ge 0 _

/-! ## Operations by way of a dense buffer -/

theorem wellFormed_scale (hT : A.table.Lawful) (hx : x.WellFormed A) (s : α) :
    (A.scale x s).WellFormed A :=
  wellFormed_compress hT (size_toDense hT (hx.map _)).ge 0 _

theorem size_moved (image : Nat → Nat × α) (x : Multivector α) : ((A.stored x).foldl
    (fun d (c, i) => d.setIfInBounds (image i).1 ((image i).2 * c)) A.denseZeros).size =
      A.table.denseSize := by
  rw [Coordinates.size_foldl (fun d _ => Array.size_setIfInBounds), size_denseZeros]

theorem wellFormed_permute (hT : A.table.Lawful) (image : Nat → Nat × α) (x : Multivector α) :
    (A.permute image x).WellFormed A :=
  wellFormed_compress hT (size_moved image x).ge 0 _

/-! ## Products -/

theorem size_addPartialProduct (c d dense : Coordinates α) (p : PartialProduct α) :
    (A.addPartialProduct c d dense p).size = dense.size :=
  Coordinates.size_foldl (fun _ _ => Array.size_modify) _ _

theorem size_addGroups (kind : ProductKind) (i j : Nat) (c d dense : Coordinates α) :
    ((A.partialProducts kind i j).foldl (A.addPartialProduct c d) dense).size = dense.size :=
  Coordinates.size_foldl (size_addPartialProduct c d) _ _

theorem denseProduct_eq (kind : ProductKind) (x y : Multivector α) : A.denseProduct kind x y =
    (A.storedGroups x).foldl (fun dense p => (A.storedGroups y).foldl (fun dense q =>
      (A.partialProducts kind p.1 q.1).foldl (A.addPartialProduct p.2 q.2) dense) dense)
      A.denseZeros := rfl

theorem size_addRow (kind : ProductKind) (p : Nat × Coordinates α)
    (qs : List (Nat × Coordinates α)) (dense : Coordinates α) :
    (qs.foldl (fun dense q => (A.partialProducts kind p.1 q.1).foldl
      (A.addPartialProduct p.2 q.2) dense) dense).size = dense.size := by
  refine Coordinates.size_foldl (fun dense q => ?_) qs dense
  exact size_addGroups kind p.1 q.1 p.2 q.2 dense

theorem size_denseProduct (kind : ProductKind) (x y : Multivector α) :
    (A.denseProduct kind x y).size = A.table.denseSize := by
  rw [denseProduct_eq, Coordinates.size_foldl fun dense p => size_addRow kind p _ dense,
    size_denseZeros]

theorem wellFormed_product (hT : A.table.Lawful) (kind : ProductKind) (x y : Multivector α) :
    (A.product kind x y).WellFormed A :=
  wellFormed_compress hT (size_denseProduct kind x y).ge 0 _

end Clifford

end GeometricAlgebra
