/-
  GeometricAlgebra.Proofs.Multivector.Groups

  The groups of a multivector.  Walking the buffer group by group reads the same slices as
  looking each group up at its offset, and a well-formed multivector is determined by them.

    * `Clifford.expand_eq`: the walk and the lookup agree on every group.
    * `Multivector.WellFormed.ext`: equal groups, equal multivectors.
    * `Multivector.wellFormed_iff`: well-formedness can be decided.
    * `Clifford.wellFormed_assemble`, `group?_assemble`: what is built group by group is well
      formed and has the groups it was built from.
    * `Clifford.mem_stored_iff`: the stored coordinates and their dense indices.
-/

import GeometricAlgebra.Multivector
import GeometricAlgebra.Proofs.Layout

namespace GeometricAlgebra

open GradeTable (assemble)

variable {α : Type} {A : Clifford α} {x y : Multivector α} {g : Nat}

namespace Clifford

/-! ## Lookup and walk -/

theorem group?_of_has (hg : x.grades.has g = true) : A.group? x g =
    some (x.coords.extract (A.table.offset x.grades g)
      (A.table.offset x.grades g + A.table.groupSize g)) := by
  rw [group?, if_pos hg]

theorem group?_of_not_has (hg : x.grades.has g = false) : A.group? x g = none := by
  rw [group?, if_neg (by simp [hg])]

@[simp] theorem isSome_group? : (A.group? x g).isSome = x.grades.has g := by
  cases hg : x.grades.has g with
  | true => rw [group?_of_has hg, Option.isSome_some]
  | false => rw [group?_of_not_has hg, Option.isSome_none]

theorem group?_map (f : α → α) (x : Multivector α) (g : Nat) :
    A.group? (x.map f) g = (A.group? x g).map (Array.map f) := by
  rw [group?, group?]
  cases hg : x.grades.has g with
  | true => simp [Multivector.map, hg]
  | false => simp [Multivector.map, hg]

theorem expandFrom_eq (x : Multivector α) {m k : Nat} (h : m + k = A.table.numGroups) :
    A.expandFrom x (A.table.offset x.grades m) (List.range' m k) =
      (List.range' m k).map (A.group? x) := by
  induction k generalizing m with
  | zero => rfl
  | succ k ih =>
    have hm : m ≤ A.table.dimension := by
      have : m + (k + 1) = A.table.dimension + 1 := h
      omega
    -- the running offset moves exactly when the grade is stored
    have hnext := A.table.offset_succ x.grades hm
    have htail := ih (m := m + 1) (by omega)
    rw [List.range'_succ, expandFrom, List.map_cons]
    cases hs : x.grades.has m with
    | true =>
      rw [hs, if_pos rfl] at hnext
      rw [if_pos rfl, group?_of_has hs, ← htail, hnext]
    | false =>
      rw [hs, if_neg (by simp)] at hnext
      rw [if_neg (by simp), group?_of_not_has hs, ← htail, hnext]
      rfl

/-- One pass over the buffer reads every group at its offset. -/
theorem expand_eq (x : Multivector α) : A.expand x = A.table.groups.map (A.group? x) := by
  have h := A.expandFrom_eq x (Nat.zero_add A.table.numGroups)
  rwa [GradeTable.offset_zero, ← List.range_eq_range'] at h

theorem storedGroups_eq (x : Multivector α) : A.storedGroups x =
    (A.table.groups.filter x.grades.has).map fun g => (g, (A.group? x g).getD #[]) := by
  rw [storedGroups, expand_eq]
  induction A.table.groups with
  | nil => rfl
  | cons g gs ih =>
    rw [List.map_cons, List.zip_cons_cons, List.filterMap_cons, ih, List.filter_cons]
    cases hg : x.grades.has g with
    | true => simp [group?_of_has hg]
    | false => simp [group?_of_not_has hg]

theorem mem_storedGroups_iff {c : Coordinates α} :
    (g, c) ∈ A.storedGroups x ↔ g ≤ A.dimension ∧ A.group? x g = some c := by
  rw [storedGroups_eq, List.mem_map]
  constructor
  · rintro ⟨k, hk, hkc⟩
    obtain ⟨hk, hs⟩ := List.mem_filter.mp hk
    obtain ⟨rfl, rfl⟩ := Prod.mk.inj hkc
    rw [group?_of_has hs]
    exact ⟨GradeTable.mem_groups.mp hk, rfl⟩
  · rintro ⟨hg, hc⟩
    have hs : x.grades.has g = true := by rw [← isSome_group? (A := A), hc, Option.isSome_some]
    exact ⟨g, List.mem_filter.mpr ⟨GradeTable.mem_groups.mpr hg, hs⟩, by rw [hc]; rfl⟩

theorem has_of_mem_storedGroups {p : Nat × Coordinates α} (hp : p ∈ A.storedGroups x) :
    x.grades.has p.1 = true := by
  rw [← isSome_group? (A := A), (mem_storedGroups_iff.mp hp).2, Option.isSome_some]

end Clifford

/-! ## Well-formed multivectors -/

namespace Multivector.WellFormed

open Clifford

theorem le (h : x.WellFormed A) (hg : x.grades.has g = true) : g ≤ A.table.dimension := h.1 g hg

theorem size_coords (h : x.WellFormed A) : x.coords.size = A.table.size x.grades := h.2

/-- The slice of a stored group lies in the buffer. -/
theorem offset_add_le (h : x.WellFormed A) (hg : x.grades.has g = true) :
    A.table.offset x.grades g + A.table.groupSize g ≤ x.coords.size := by
  rw [h.size_coords]
  exact GradeTable.offset_add_groupSize_le x.grades (h.le hg) hg

theorem size_group (h : x.WellFormed A) {c : Coordinates α} (hc : A.group? x g = some c) :
    c.size = A.table.groupSize g := by
  have hg : x.grades.has g = true := by rw [← isSome_group? (A := A), hc, Option.isSome_some]
  rw [group?_of_has hg, Option.some.injEq] at hc
  have := h.offset_add_le hg
  rw [← hc, Array.size_extract]
  omega

theorem size_getD_group (h : x.WellFormed A) (hg : x.grades.has g = true) (d : Coordinates α) :
    ((A.group? x g).getD d).size = A.table.groupSize g :=
  h.size_group (by rw [group?_of_has hg, Option.getD_some])

/-- A well-formed buffer is assembled from its groups. -/
theorem coords_eq (h : x.WellFormed A) :
    x.coords = A.table.assemble x.grades fun g => (A.group? x g).getD #[] := by
  rw [← GradeTable.assemble_extract h.size_coords]
  apply GradeTable.assemble_congr
  intro g _ hs
  rw [group?_of_has hs, Option.getD_some]

/-- Equal groups, equal multivectors. -/
theorem ext (hx : x.WellFormed A) (hy : y.WellFormed A)
    (h : ∀ g ≤ A.table.dimension, A.group? x g = A.group? y g) : x = y := by
  -- a grade is stored exactly when it has a group; beyond the dimension there is none
  have hgrades : x.grades = y.grades := GradeSet.ext_has fun g => by
    by_cases hg : g ≤ A.table.dimension
    · rw [← isSome_group? (A := A), h g hg, isSome_group?]
    · rw [Bool.eq_false_iff.mpr fun hs => hg (hx.le hs), Bool.eq_false_iff.mpr fun hs => hg (hy.le hs)]
  have hcoords : x.coords = y.coords := by
    rw [hx.coords_eq, hy.coords_eq, hgrades]
    exact GradeTable.assemble_congr fun g hg _ => by rw [h g hg]
  cases x
  cases y
  exact congrArg₂ Multivector.mk hgrades hcoords

end Multivector.WellFormed

theorem Multivector.wellFormed_iff : x.WellFormed A ↔
    x.grades &&& A.table.fullSet = x.grades ∧ x.coords.size = A.table.size x.grades := by
  apply and_congr_left
  intro _
  constructor
  · intro hle
    apply GradeSet.ext_has
    intro g
    rw [GradeSet.has_and]
    cases hg : x.grades.has g with
    | false => rfl
    | true => rw [GradeTable.has_fullSet.mpr (hle g hg), Bool.true_and]
  · intro hgrades g hg
    rw [← hgrades, GradeSet.has_and, Bool.and_eq_true] at hg
    exact GradeTable.has_fullSet.mp hg.2

instance : Decidable (x.WellFormed A) := decidable_of_iff _ Multivector.wellFormed_iff.symm

/-! ## Building group by group -/

namespace Clifford

section Assemble

variable {s : GradeSet} {f : Nat → Coordinates α} (hs : ∀ g, s.has g = true → g ≤ A.table.dimension)
  (hf : ∀ g ≤ A.table.dimension, s.has g = true → (f g).size = A.table.groupSize g)
include hs hf

theorem wellFormed_assemble : Multivector.WellFormed A ⟨s, A.table.assemble s f⟩ :=
  ⟨hs, GradeTable.size_assemble hf⟩

theorem group?_assemble (g : Nat) :
    A.group? ⟨s, A.table.assemble s f⟩ g = if s.has g then some (f g) else none := by
  cases hg : s.has g with
  | true =>
    rw [group?_of_has hg, GradeTable.extract_assemble hf (hs g hg) hg]
    rfl
  | false =>
    rw [group?_of_not_has hg]
    rfl

end Assemble

/-! ## Stored coordinates -/

/-- The walk meets every coordinate once, in buffer order. -/
theorem map_fst_stored (hx : x.WellFormed A) : (A.stored x).map Prod.fst = x.coords.toList := by
  rw [stored, List.map_flatMap, storedGroups_eq, hx.coords_eq, GradeTable.toList_assemble,
    List.flatMap_map]
  apply List.flatMap_congr
  intro g _
  simp

theorem coordinate_of_group? [Scalar α] {b : Nat} {c : Coordinates α}
    (hc : A.group? x (Blade.grade b) = some c) : A.coordinate x b = c.getD (A.localIndex b) 0 := by
  rw [coordinate, hc]

section Lawful

variable (hT : A.table.Lawful)
include hT

theorem localIndex_lt {b : Nat} (hb : b < 2 ^ A.table.dimension) :
    A.localIndex b < A.table.groupSize (Blade.grade b) := by
  have := hT.denseStart_le_index hb
  rw [localIndex]
  omega

/-- The place of a blade lies in its group, if that is stored. -/
theorem localIndex_lt_size (hx : x.WellFormed A) {b : Nat} (hb : b < 2 ^ A.table.dimension)
    {c : Coordinates α} (hc : A.group? x (Blade.grade b) = some c) : A.localIndex b < c.size := by
  rw [hx.size_group hc]
  exact localIndex_lt hT hb

/-- What is stored at a dense index is the coordinate of its blade. -/
theorem mem_stored_iff [Scalar α] (hx : x.WellFormed A) {v : α} {i : Nat} : (v, i) ∈ A.stored x ↔
    i < 2 ^ A.table.dimension ∧ x.grades.has (A.table.gradeOf i) = true ∧
      v = A.coordinate x (A.table.blade i) := by
  -- place `k` of a group is that of the blade at dense index `denseStart g + k`
  have hplace : ∀ {g c}, A.group? x g = some c → g ≤ A.table.dimension → ∀ k < c.size,
      A.table.denseStart g + k < 2 ^ A.table.dimension ∧
      A.table.gradeOf (A.table.denseStart g + k) = g ∧
      A.localIndex (A.table.blade (A.table.denseStart g + k)) = k := by
    intro g c hc hg k hk
    rw [hx.size_group hc] at hk
    have hlt := hT.denseStart_add_lt hg hk
    have hgrade := hT.gradeOf_add hg hk
    refine ⟨hlt, hgrade, ?_⟩
    rw [localIndex, hT.index_blade _ hlt, show Blade.grade _ = g from hgrade]
    omega
  rw [stored, List.mem_flatMap]
  constructor
  · rintro ⟨⟨g, c⟩, hgc, hv⟩
    obtain ⟨hg, hc⟩ := mem_storedGroups_iff.mp hgc
    obtain ⟨hle, hlt, hv⟩ := List.mem_zipIdx hv
    obtain ⟨k, rfl⟩ := Nat.exists_eq_add_of_le hle
    have hk : k < c.size := by rw [Array.length_toList] at hlt; omega
    obtain ⟨hi, hgrade, hlocal⟩ := hplace hc hg k hk
    refine ⟨hi, by rw [hgrade, ← isSome_group? (A := A), hc, Option.isSome_some], ?_⟩
    rw [GradeTable.gradeOf] at hgrade
    rw [coordinate_of_group? (c := c) (by rw [hgrade, hc]), hlocal, hv]
    simp [Array.getD_eq_getD_getElem?, hk]
  · rintro ⟨hi, hs, rfl⟩
    have hg := hT.gradeOf_le hi
    have hmem := (hT.gradeOf_eq_iff hi).mp rfl
    obtain ⟨c, hc⟩ : ∃ c, A.group? x (A.table.gradeOf i) = some c :=
      Option.isSome_iff_exists.mp (by rw [isSome_group?, hs])
    refine ⟨(A.table.gradeOf i, c), mem_storedGroups_iff.mpr ⟨hg, hc⟩, ?_⟩
    have hk : i - A.table.denseStart (A.table.gradeOf i) < c.size := by
      rw [hx.size_group hc]
      omega
    obtain ⟨-, -, hlocal⟩ := hplace hc hg _ hk
    rw [Nat.add_sub_cancel' hmem.1] at hlocal
    rw [List.mk_mem_zipIdx_iff_le_and_getElem?_sub, coordinate_of_group? hc, hlocal]
    refine ⟨hmem.1, ?_⟩
    simp [Array.getD_eq_getD_getElem?, hk]

end Lawful

end Clifford

end GeometricAlgebra
