/-
  GeometricAlgebra.Proofs.Multivector.GradeParts

  The parts of a multivector in its grades, and sums and differences group by group, for
  coordinates of every kind.  No coordinate of a part is computed with, so that parts of different
  grades are put together again without rounding.

    * `Clifford.coordinate_sum`, `coordinate_difference`: the coordinates of a sum and of a
      difference.
    * `Clifford.extract_extract`, `add_extract`: parts of parts, and disjoint parts added.
    * `Clifford.foldl_add_extract`: parts of single grades, added one after the other.
    * `Clifford.gradeParts_of_ofConfig`: the laws for every accepted algebra.
-/

import GeometricAlgebra.Proofs.Multivector.DenseRoundtrip
import GeometricAlgebra.Proofs.Multivector.Value

namespace GeometricAlgebra

namespace Clifford

variable {α : Type} [Scalar α] {A : Clifford α} {x y : Multivector α}

/-! ## Sums and differences -/

section Coordinates

variable (hx : x.WellFormed A) (hy : y.WellFormed A) (hT : A.table.Lawful) {b : Nat}
  (hb : b < 2 ^ A.dimension)
include hx hy hT hb

/-- The coordinates of a sum: where one operand stores no group, the other is copied. -/
theorem coordinate_sum : A.coordinate (A.add x y) b =
    match x.grades.has (Blade.grade b), y.grades.has (Blade.grade b) with
    | true, true => A.coordinate x b + A.coordinate y b
    | true, false => A.coordinate x b
    | false, true => A.coordinate y b
    | false, false => 0 := by
  rw [coordinate, coordinate, coordinate, group?_add hx hy, ← isSome_group? (A := A),
    ← isSome_group? (A := A)]
  cases hc : A.group? x (Blade.grade b) with
  | none => cases A.group? y (Blade.grade b) <;> rfl
  | some c =>
    cases hd : A.group? y (Blade.grade b) with
    | none => rfl
    | some d =>
      have hleft := localIndex_lt_size hT hx hb hc
      have hright := localIndex_lt_size hT hy hb hd
      exact Coordinates.getD_zipWith (· + ·) hleft hright

/-- The coordinates of a difference: where only the subtrahend stores a group, it is negated. -/
theorem coordinate_difference : A.coordinate (A.subtract x y) b =
    match x.grades.has (Blade.grade b), y.grades.has (Blade.grade b) with
    | true, true => A.coordinate x b - A.coordinate y b
    | true, false => A.coordinate x b
    | false, true => -A.coordinate y b
    | false, false => 0 := by
  rw [coordinate, coordinate, coordinate, group?_subtract hx hy, ← isSome_group? (A := A),
    ← isSome_group? (A := A)]
  cases hc : A.group? x (Blade.grade b) with
  | none =>
    cases hd : A.group? y (Blade.grade b) with
    | none => rfl
    | some d => exact Coordinates.getD_negated (localIndex_lt_size hT hy hb hd)
  | some c =>
    cases hd : A.group? y (Blade.grade b) with
    | none => rfl
    | some d =>
      have hleft := localIndex_lt_size hT hx hb hc
      have hright := localIndex_lt_size hT hy hb hd
      exact Coordinates.getD_zipWith (· - ·) hleft hright

end Coordinates

/-! ## Parts -/

section Parts

variable (hx : x.WellFormed A)
include hx

omit [Scalar α] in
/-- A part of a part is the part in the common grades. -/
theorem extract_extract (m₁ m₂ : GradeSet) :
    A.extract (A.extract x m₁) m₂ = A.extract x (m₁ &&& m₂) := by
  have hpart := wellFormed_extract hx m₁
  apply (wellFormed_extract hpart m₂).ext (wellFormed_extract hx (m₁ &&& m₂))
  intro g _
  rw [group?_extract hpart, group?_extract hx, group?_extract hx, GradeSet.has_and]
  cases m₁.has g with
  | false => simp
  | true => simp

omit [Scalar α] in
/-- The part in all stored grades is the multivector. -/
theorem extract_of_subset {m : GradeSet} (hm : ∀ g, x.grades.has g = true → m.has g = true) :
    A.extract x m = x := by
  apply (wellFormed_extract hx m).ext hx
  intro g _
  rw [group?_extract hx]
  by_cases hg : m.has g = true
  · rw [if_pos hg]
  · rw [if_neg hg, group?_of_not_has (Bool.eq_false_iff.mpr fun hs => hg (hm g hs))]

/-- Parts without a common grade: each group of the sum is a group of one of them. -/
theorem add_extract {m₁ m₂ : GradeSet} (h : m₁ &&& m₂ = 0) :
    A.add (A.extract x m₁) (A.extract x m₂) = A.extract x (m₁ ||| m₂) := by
  have h₁ := wellFormed_extract hx m₁
  have h₂ := wellFormed_extract hx m₂
  apply (wellFormed_add h₁ h₂).ext (wellFormed_extract hx (m₁ ||| m₂))
  intro g _
  have hdisjoint : (m₁.has g && m₂.has g) = false := by
    rw [← GradeSet.has_and, h, GradeSet.has_zero]
  rw [group?_add h₁ h₂, group?_extract hx, group?_extract hx, group?_extract hx, GradeSet.has_or]
  cases hg₁ : m₁.has g with
  | false => cases m₂.has g <;> simp
  | true =>
    rw [hg₁, Bool.true_and] at hdisjoint
    simp [hdisjoint]

/-- Parts of single grades, one after the other: to what is there, the grades not there yet are
    added. -/
theorem foldl_add_extract {gs : List Nat} (hgs : gs.Nodup) (m : GradeSet)
    (hm : ∀ g ∈ gs, m.has g = false) :
    (gs.map fun g => A.extract x (GradeSet.insert 0 g)).foldl A.add (A.extract x m) =
      A.extract x (gs.foldl GradeSet.insert m) := by
  induction gs generalizing m with
  | nil => rfl
  | cons g gs ih =>
    obtain ⟨hg, hgs⟩ := List.nodup_cons.mp hgs
    obtain ⟨hmg, hm⟩ := List.forall_mem_cons.mp hm
    have hdisjoint : m &&& GradeSet.insert 0 g = 0 := by
      apply GradeSet.ext_has
      intro k
      by_cases hk : k = g
      · simp [hk, hmg]
      · simp [hk]
    have hinsert : m ||| GradeSet.insert 0 g = m.insert g := by
      apply GradeSet.ext_has
      intro k
      simp
    rw [List.map_cons, List.foldl_cons, add_extract hx hdisjoint, hinsert, List.foldl_cons]
    apply ih hgs
    intro k hk
    have hne : k ≠ g := fun h => hg (h ▸ hk)
    simp [hm k hk, hne]

/-- Its parts in all stored grades, added up, are the multivector. -/
theorem foldl_add_gradeParts {gs : List Nat} (hgs : gs.Nodup)
    (hstored : ∀ g, x.grades.has g = true → g ∈ gs) :
    (gs.map fun g => A.extract x (GradeSet.insert 0 g)).foldl A.add .zero = x := by
  have hzero : A.extract x 0 = .zero := by
    apply (wellFormed_extract hx 0).ext Multivector.wellFormed_zero
    intro g _
    rw [group?_extract hx, GradeSet.has_zero, if_neg (by decide),
      group?_of_not_has (x := .zero) (GradeSet.has_zero g)]
  rw [← hzero, foldl_add_extract hx hgs 0 fun g _ => GradeSet.has_zero g]
  apply extract_of_subset hx
  intro g hg
  have hinserted := GradeSet.has_foldl_insert (fun _ => true) gs 0 g
  exact hinserted.trans (by simp [hstored g hg])

end Parts

/-- For every accepted algebra, whatever the coordinates: a part of a part is the part in the common
    grades; disjoint parts add up to the part in the grades of both, and the parts in single grades,
    each stored grade once and in any order, to the multivector itself; and a sum and a difference
    store the grades of both operands, with the coordinates combined where both store them, and
    those of one operand, negated for the subtrahend, where only that one does. -/
theorem gradeParts_of_ofConfig {c : Config α} (h : ofConfig c = .ok A) (hx : x.WellFormed A)
    (hy : y.WellFormed A) :
    (∀ m₁ m₂ : GradeSet, A.extract (A.extract x m₁) m₂ = A.extract x (m₁ &&& m₂)) ∧
    (∀ m₁ m₂ : GradeSet, m₁ &&& m₂ = 0 →
      A.add (A.extract x m₁) (A.extract x m₂) = A.extract x (m₁ ||| m₂)) ∧
    (∀ gs : List Nat, gs.Nodup → (∀ g, x.grades.has g = true → g ∈ gs) →
      (gs.map fun g => A.extract x (GradeSet.insert 0 g)).foldl A.add .zero = x) ∧
    ((A.add x y).WellFormed A ∧ (A.add x y).grades = x.grades ||| y.grades ∧
      ∀ b < 2 ^ A.dimension, A.coordinate (A.add x y) b =
        match x.grades.has (Blade.grade b), y.grades.has (Blade.grade b) with
        | true, true => A.coordinate x b + A.coordinate y b
        | true, false => A.coordinate x b
        | false, true => A.coordinate y b
        | false, false => 0) ∧
    (A.subtract x y).WellFormed A ∧ (A.subtract x y).grades = x.grades ||| y.grades ∧
      ∀ b < 2 ^ A.dimension, A.coordinate (A.subtract x y) b =
        match x.grades.has (Blade.grade b), y.grades.has (Blade.grade b) with
        | true, true => A.coordinate x b - A.coordinate y b
        | true, false => A.coordinate x b
        | false, true => -A.coordinate y b
        | false, false => 0 := by
  have hT := lawful_of_ofConfig h
  refine ⟨extract_extract hx, fun m₁ m₂ => add_extract hx, fun gs => foldl_add_gradeParts hx,
    ⟨wellFormed_add hx hy, rfl, ?_⟩, wellFormed_subtract hx hy, rfl, ?_⟩
  · exact fun b hb => coordinate_sum hx hy hT hb
  · exact fun b hb => coordinate_difference hx hy hT hb

/-- Infinite, undefined and negative zero coordinates are put together again as they were, from the
    highest grade down; a sum and a difference of operands with one grade in common. -/
theorem gradeParts_space : ofConfig Config.e3ga = .ok space ∧
    let x : Multivector Float := ⟨11, #[-0, 1 / 0, 0 / 0, 2, -0]⟩
    let y : Multivector Float := ⟨6, #[1, -1, -0.5, 3, 0, -2]⟩
    x.WellFormed space ∧ y.WellFormed space ∧
      space.extract (space.extract x 3) 10 = space.extract x 2 ∧
      space.extract x 2 = ⟨2, #[1 / 0, 0 / 0, 2]⟩ ∧
      space.add (space.extract x 9) (space.extract x 2) = space.extract x 11 ∧
      ([3, 2, 1, 0].map fun g => space.extract x (GradeSet.insert 0 g)).foldl space.add .zero = x ∧
      space.coordinate (space.add x y) 4 = space.coordinate x 4 + space.coordinate y 4 ∧
      space.coordinate (space.subtract x y) 3 = -space.coordinate y 3 ∧
      space.add x y = ⟨15, #[-0, 1 / 0, 0 / 0, 1.5, 3, 0, -2, -0]⟩ ∧
      space.subtract x y = ⟨15, #[-0, 1 / 0, 0 / 0, 2.5, -3, -0, 2, -0]⟩ := by
  have hx : Multivector.WellFormed space ⟨11, #[-0, 1 / 0, 0 / 0, 2, -0]⟩ := by decide +kernel
  have hy : Multivector.WellFormed space ⟨6, #[1, -1, -0.5, 3, 0, -2]⟩ := by decide +kernel
  have hstored : ∀ g, GradeSet.has 11 g = true → g ∈ [3, 2, 1, 0] := fun g hg =>
    (show ∀ g ≤ 3, g ∈ [3, 2, 1, 0] by decide) g (hx.le hg)
  obtain ⟨hextract, hdisjoint, hparts, ⟨-, -, hadd⟩, -, -, hsubtract⟩ :=
    gradeParts_of_ofConfig ofConfig_space hx hy
  have hsum := hadd 4 (by decide +kernel)
  have hdifference := hsubtract 3 (by decide +kernel)
  rw [show Blade.grade 4 = 1 by decide +kernel] at hsum
  rw [show Blade.grade 3 = 2 by decide +kernel] at hdifference
  exact ⟨ofConfig_space, hx, hy, hextract 3 10, by decide +kernel, hdisjoint 9 2 rfl,
    hparts [3, 2, 1, 0] (by decide) hstored, hsum, hdifference, by decide +kernel,
    by decide +kernel⟩

end Clifford

end GeometricAlgebra
