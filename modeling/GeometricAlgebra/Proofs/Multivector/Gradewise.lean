/-
  GeometricAlgebra.Proofs.Multivector.Gradewise

  Operations that work grade by grade, as buffers assembled from the groups of their operands.

    * `Clifford.mapGroups_eq`, `Clifford.wellFormed_mapGroups`: one operand.
    * `Clifford.group?_zipGroups`: the groups of a combination of two operands.
    * `Clifford.wellFormed_zipUnion`, `Clifford.wellFormed_zipCommon`: combinations over all
      grades of the operands and over their common grades.
    * `Clifford.group?_add`, `Clifford.group?_subtract`: the groups of a sum and of a difference.
-/

import GeometricAlgebra.Multivector.Gradewise
import GeometricAlgebra.Outermorphism
import GeometricAlgebra.Proofs.Multivector.Writing

namespace GeometricAlgebra

namespace Coordinates

variable {α : Type} [Scalar α] {c d : Coordinates α} {i : Nat}

/-- An entry of two groups combined entry by entry. -/
theorem getD_zipWith (f : α → α → α) (hc : i < c.size) (hd : i < d.size) :
    (Array.zipWith f c d).getD i 0 = f (c.getD i 0) (d.getD i 0) := by
  simp [Array.getD_eq_getD_getElem?, hc, hd]

theorem getD_negated (hc : i < c.size) : c.negated.getD i 0 = -c.getD i 0 := by
  simp [negated, Array.getD_eq_getD_getElem?, hc]

end Coordinates

namespace Clifford

variable {α : Type} {A : Clifford α} {x y : Multivector α}

/-! ## One operand -/

theorem mapGroups_eq (f : Nat → Coordinates α → Coordinates α) (x : Multivector α) :
    A.mapGroups f x = ⟨x.grades,
      A.table.assemble x.grades fun g => f g ((A.group? x g).getD #[])⟩ := by
  rw [mapGroups, storedGroups_eq, List.foldl_map]
  rfl

section MapGroups

variable {f : Nat → Coordinates α → Coordinates α} (hf : ∀ g c, (f g c).size = c.size)
include hf

theorem wellFormed_mapGroups (hx : x.WellFormed A) : (A.mapGroups f x).WellFormed A := by
  rw [mapGroups_eq]
  refine wellFormed_assemble hx.1 fun g _ hg => ?_
  rw [hf, hx.size_getD_group hg]

theorem group?_mapGroups (hx : x.WellFormed A) (g : Nat) :
    A.group? (A.mapGroups f x) g = (A.group? x g).map (f g) := by
  rw [mapGroups_eq, group?_assemble hx.1 fun g _ hg => by rw [hf, hx.size_getD_group hg]]
  cases hg : x.grades.has g with
  | true => simp [group?_of_has hg]
  | false => simp [group?_of_not_has hg]

end MapGroups

/-! ## Two operands -/

section ZipGroups

variable {f : Option (Coordinates α) → Option (Coordinates α) → Coordinates α} {s : GradeSet}
  (hs : ∀ g, s.has g = true → g ≤ A.table.dimension)
  (hf : ∀ g ≤ A.table.dimension, s.has g = true →
    (f (A.group? x g) (A.group? y g)).size = A.table.groupSize g)
include hs hf

theorem wellFormed_zipGroups : (A.zipGroups f s x y).WellFormed A := wellFormed_assemble hs hf

theorem group?_zipGroups (g : Nat) : A.group? (A.zipGroups f s x y) g =
    if s.has g then some (f (A.group? x g) (A.group? y g)) else none :=
  group?_assemble hs hf g

end ZipGroups

section Combined

variable (hx : x.WellFormed A) (hy : y.WellFormed A)
include hx hy

theorem le_of_has_or (g : Nat) (hg : GradeSet.has (x.grades ||| y.grades) g = true) :
    g ≤ A.table.dimension := by
  rw [GradeSet.has_or, Bool.or_eq_true] at hg
  exact hg.elim hx.le hy.le

section Union

variable {f : Option (Coordinates α) → Option (Coordinates α) → Coordinates α}
  (hboth : ∀ c d : Coordinates α, c.size = d.size → (f (some c) (some d)).size = c.size)
  (hleft : ∀ c, (f (some c) none).size = c.size) (hright : ∀ d, (f none (some d)).size = d.size)
include hboth hleft hright

theorem size_zipUnion {g : Nat} (hg : GradeSet.has (x.grades ||| y.grades) g = true) :
    (f (A.group? x g) (A.group? y g)).size = A.table.groupSize g := by
  rw [GradeSet.has_or, ← isSome_group? (A := A), ← isSome_group? (A := A)] at hg
  cases hc : A.group? x g with
  | none =>
    cases hd : A.group? y g with
    | none => simp [hc, hd] at hg
    | some d => rw [hright, hy.size_group hd]
  | some c =>
    cases hd : A.group? y g with
    | none => rw [hleft, hx.size_group hc]
    | some d => rw [hboth c d ((hx.size_group hc).trans (hy.size_group hd).symm), hx.size_group hc]

/-- A combination over every grade that either operand stores. -/
theorem wellFormed_zipUnion : (A.zipGroups f (x.grades ||| y.grades) x y).WellFormed A :=
  wellFormed_zipGroups (le_of_has_or hx hy) fun _ _ hg =>
    size_zipUnion hx hy hboth hleft hright hg

theorem group?_zipUnion (g : Nat) : A.group? (A.zipGroups f (x.grades ||| y.grades) x y) g =
    if (A.group? x g).isSome || (A.group? y g).isSome then some (f (A.group? x g) (A.group? y g))
    else none := by
  rw [group?_zipGroups (le_of_has_or hx hy) fun _ _ hg =>
    size_zipUnion hx hy hboth hleft hright hg, GradeSet.has_or, isSome_group?, isSome_group?]

end Union

/-- A combination over the grades that both operands store. -/
theorem wellFormed_zipCommon {f : Coordinates α → Coordinates α → Coordinates α}
    (hf : ∀ c d : Coordinates α, c.size = d.size → (f c d).size = c.size) :
    (A.zipCommon f x y).WellFormed A := by
  refine wellFormed_zipGroups (fun g hg => ?_) fun g _ hg => ?_
  · rw [GradeSet.has_and, Bool.and_eq_true] at hg
    exact hx.le hg.1
  · rw [GradeSet.has_and, Bool.and_eq_true] at hg
    have hc := hx.size_getD_group hg.1 #[]
    have hd := hy.size_getD_group hg.2 #[]
    rw [hf _ _ (hc.trans hd.symm), hc]

end Combined

section Extract

variable (hx : x.WellFormed A) (mask : GradeSet)
include hx

theorem le_of_has_and (g : Nat) (hg : GradeSet.has (x.grades &&& mask) g = true) :
    g ≤ A.table.dimension := by
  rw [GradeSet.has_and, Bool.and_eq_true] at hg
  exact hx.le hg.1

theorem size_getD_of_has_and (g : Nat) (_ : g ≤ A.table.dimension)
    (hg : GradeSet.has (x.grades &&& mask) g = true) :
    ((A.group? x g).getD #[]).size = A.table.groupSize g := by
  rw [GradeSet.has_and, Bool.and_eq_true] at hg
  exact hx.size_getD_group hg.1 #[]

theorem wellFormed_extract : (A.extract x mask).WellFormed A :=
  wellFormed_zipGroups (le_of_has_and hx mask) (size_getD_of_has_and hx mask)

/-- Of the stored groups, those of the mask stay. -/
theorem group?_extract (g : Nat) :
    A.group? (A.extract x mask) g = if mask.has g = true then A.group? x g else none := by
  rw [extract, group?_zipGroups (le_of_has_and hx mask) (size_getD_of_has_and hx mask),
    GradeSet.has_and]
  cases hs : x.grades.has g with
  | false => simp [group?_of_not_has hs]
  | true => simp [group?_of_has hs]

end Extract

/-! ## The operations -/

variable [Scalar α]

theorem wellFormed_signGrades (hx : x.WellFormed A) (sign : Nat → Sign) :
    (A.signGrades sign x).WellFormed A :=
  wellFormed_mapGroups (fun _ _ => Array.size_map) hx

theorem size_sum {c d : Coordinates α} (h : c.size = d.size) : (c.sum d).size = c.size := by
  simp [Coordinates.sum, h]

theorem size_difference {c d : Coordinates α} (h : c.size = d.size) :
    (c.difference d).size = c.size := by
  simp [Coordinates.difference, h]

theorem wellFormed_add (hx : x.WellFormed A) (hy : y.WellFormed A) :
    (A.add x y).WellFormed A :=
  wellFormed_zipUnion hx hy (fun _ _ => size_sum) (fun _ => rfl) fun _ => rfl

/-- A group that one operand stores is kept, and two groups are added. -/
theorem group?_add (hx : x.WellFormed A) (hy : y.WellFormed A) (g : Nat) :
    A.group? (A.add x y) g = Option.merge Coordinates.sum (A.group? x g) (A.group? y g) := by
  rw [add, group?_zipUnion hx hy (fun _ _ => size_sum) (fun _ => rfl) fun _ => rfl]
  cases A.group? x g with
  | none => cases A.group? y g <;> rfl
  | some c => cases A.group? y g <;> rfl

theorem wellFormed_subtract (hx : x.WellFormed A) (hy : y.WellFormed A) :
    (A.subtract x y).WellFormed A :=
  wellFormed_zipUnion hx hy (fun _ _ => size_difference) (fun _ => rfl) fun _ => Array.size_map

theorem group?_subtract (hx : x.WellFormed A) (hy : y.WellFormed A) (g : Nat) :
    A.group? (A.subtract x y) g =
      match A.group? x g, A.group? y g with
      | some c, some d => some (c.difference d)
      | some c, none => some c
      | none, some d => some d.negated
      | none, none => none := by
  rw [subtract, group?_zipUnion hx hy (fun _ _ => size_difference) (fun _ => rfl)
    fun _ => Array.size_map]
  cases A.group? x g with
  | none => cases A.group? y g <;> rfl
  | some c => cases A.group? y g <;> rfl

theorem wellFormed_hadamard (hx : x.WellFormed A) (hy : y.WellFormed A) :
    (A.hadamard x y).WellFormed A :=
  wellFormed_zipCommon hx hy fun c d hcd => by simp [Coordinates.hadamard, hcd]

theorem wellFormed_hadamardQuotient (hx : x.WellFormed A) (hy : y.WellFormed A) :
    (A.hadamardQuotient x y).WellFormed A :=
  wellFormed_zipCommon hx hy fun c d hcd => by simp [Coordinates.quotient, hcd]

theorem wellFormed_scaleAndAdd (hx : x.WellFormed A) (factor offset : α) :
    (A.scaleAndAdd x factor offset).WellFormed A := by
  rw [scaleAndAdd]
  cases offset == 0 with
  | true => exact hx.map _
  | false =>
    exact (wellFormed_reserve (hx.map _) (Nat.zero_le _)).of_size Array.size_modify

/-- The image under a linear map stores the grades of its argument. -/
theorem wellFormed_applyOutermorphism (hx : x.WellFormed A) (f : Outermorphism α) :
    (A.applyOutermorphism f x).WellFormed A :=
  wellFormed_mapGroups (fun _ _ => by simp) hx

end Clifford

end GeometricAlgebra
