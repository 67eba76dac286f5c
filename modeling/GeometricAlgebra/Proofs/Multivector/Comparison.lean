/-
  GeometricAlgebra.Proofs.Multivector.Comparison

  Comparison up to a bound.  Two multivectors are compared group by group, with a group that only
  one of them stores held against zero; that is the test of their difference for zero, for
  coordinates of every kind.

    * `Scalar.ExactDistance`: the laws of magnitudes of differences.
    * `Coordinates.equals_comm`, `Coordinates.equals_zeros`: the comparison of two groups.
    * `Clifford.equals_eq_isZero_subtract`: the walk over the groups and the test of the difference.
    * `Clifford.groupEquals_reserve`: a reserved group of zeros is not seen.
    * `Clifford.comparison_by_difference`: the laws together.
-/

import GeometricAlgebra.Proofs.Binary64.Magnitudes
import GeometricAlgebra.Proofs.Multivector.DenseRoundtrip
import GeometricAlgebra.Proofs.Multivector.SetCoordinate

namespace GeometricAlgebra

/-! ## Distances -/

/-- Arithmetic in which the distance of two scalars does not depend on their order, and that from
    zero is the magnitude.  Nothing is asked of other sums and differences, nor that every scalar
    is at distance zero from itself. -/
class Scalar.ExactDistance (α : Type) [Scalar α] : Prop extends Scalar.ExactZero α where
  protected abs_neg (x : α) : Scalar.abs (-x) = Scalar.abs x
  protected abs_sub_comm (x y : α) : Scalar.abs (x - y) = Scalar.abs (y - x)
  protected sub_zero (x : α) : x - 0 = x

instance : Scalar.ExactDistance Float where
  abs_neg := Scalar.ExactSigns.abs_neg
  abs_sub_comm := Binary64.abs_sub_comm
  sub_zero := Binary64.sub_zero

instance (priority := low) {K : Type} [Field K] [LinearOrder K] [IsStrictOrderedRing K] :
    Scalar.ExactDistance K where
  abs_neg := abs_neg
  abs_sub_comm := abs_sub_comm
  sub_zero := sub_zero

/-! ## Comparison of groups -/

namespace Coordinates

variable {α : Type} [Scalar α] {xs ys : Coordinates α}

/-- Only the magnitudes of the entries count. -/
theorem isZero_congr (eps : α) (h : xs.map Scalar.abs = ys.map Scalar.abs) :
    xs.isZero eps = ys.isZero eps := by
  have hmap : ∀ zs : Coordinates α,
      zs.isZero eps = (zs.map Scalar.abs).all fun a => decide (a ≤ eps) := by
    intro zs
    rw [Array.all_map]
    rfl
  rw [hmap, hmap, h]

/-- Groups one after the other are zero if each of them is. -/
theorem isZero_assemble (T : GradeTable) (s : GradeSet) (f : Nat → Coordinates α) (eps : α) :
    (T.assemble s f).isZero eps = (T.groups.filter s.has).all fun g => (f g).isZero eps := by
  rw [isZero, ← Array.all_toList, GradeTable.toList_assemble, List.all_flatMap]
  simp only [Array.all_toList, isZero]

variable [Scalar.ExactDistance α]

theorem isZero_negated (xs : Coordinates α) (eps : α) : xs.negated.isZero eps = xs.isZero eps := by
  apply isZero_congr
  rw [negated, Array.map_map]
  exact Array.map_congr_left fun x _ => Scalar.ExactDistance.abs_neg x

theorem equals_comm (xs ys : Coordinates α) (eps : α) : xs.equals ys eps = ys.equals xs eps := by
  apply isZero_congr
  rw [difference, difference, Array.map_zipWith, Array.map_zipWith, Array.zipWith_comm]
  simp only [Scalar.ExactDistance.abs_sub_comm]

/-- To be compared with zeros is to be tested for zero. -/
theorem equals_zeros (xs : Coordinates α) (eps : α) :
    xs.equals (zeros xs.size) eps = xs.isZero eps := by
  have hdifference : xs.difference (zeros xs.size) = xs := by
    apply Array.ext
    · simp [difference, zeros]
    · intro i hi _
      simp [difference, zeros, Scalar.ExactDistance.sub_zero]
  rw [equals, hdifference]

end Coordinates

namespace Clifford

variable {α : Type} [Scalar α] {A : Clifford α} {x y : Multivector α} {eps : α}

/-! ## Comparison of multivectors -/

/-- The comparison at one grade. -/
def groupEquals (A : Clifford α) (x y : Multivector α) (eps : α) (g : Nat) : Bool :=
  match A.group? x g, A.group? y g with
  | some c, some d => c.equals d eps
  | some c, none => c.isZero eps
  | none, some d => d.isZero eps
  | none, none => true

theorem equals_eq (x y : Multivector α) (eps : α) :
    A.equals x y eps = A.table.groups.all (A.groupEquals x y eps) := rfl

/-- The groups of a difference. -/
def groupDifference (A : Clifford α) (x y : Multivector α) (g : Nat) : Coordinates α :=
  match A.group? x g, A.group? y g with
  | some c, some d => c.difference d
  | some c, none => c
  | none, some d => d.negated
  | none, none => #[]

theorem subtract_eq (x y : Multivector α) : A.subtract x y = ⟨x.grades ||| y.grades,
    A.table.assemble (x.grades ||| y.grades) (A.groupDifference x y)⟩ := rfl

theorem equals_congr {x' y' : Multivector α}
    (h : ∀ g, A.groupEquals x y eps g = A.groupEquals x' y' eps g) :
    A.equals x y eps = A.equals x' y' eps := by
  rw [equals_eq, equals_eq, funext h]

variable [Scalar.ExactDistance α]

/-- At one grade, the comparison tests the group of the difference, or there is none. -/
theorem groupEquals_eq (x y : Multivector α) (eps : α) (g : Nat) : A.groupEquals x y eps g =
    (!GradeSet.has (x.grades ||| y.grades) g || (A.groupDifference x y g).isZero eps) := by
  rw [GradeSet.has_or, ← isSome_group? (A := A), ← isSome_group? (A := A), groupEquals,
    groupDifference]
  cases A.group? x g with
  | none =>
    cases A.group? y g with
    | none => rfl
    | some d => exact (Coordinates.isZero_negated d eps).symm
  | some c =>
    cases A.group? y g with
    | none => rfl
    | some d => rfl

/-- Multivectors are compared by testing their difference for zero. -/
theorem equals_eq_isZero_subtract (x y : Multivector α) (eps : α) :
    A.equals x y eps = (A.subtract x y).isZero eps := by
  rw [subtract_eq, Multivector.isZero, Coordinates.isZero_assemble, List.all_filter, equals_eq,
    funext (groupEquals_eq x y eps)]

theorem equals_comm (x y : Multivector α) (eps : α) : A.equals x y eps = A.equals y x eps := by
  apply equals_congr
  intro g
  rw [groupEquals, groupEquals]
  cases A.group? x g with
  | none => cases A.group? y g <;> rfl
  | some c =>
    cases A.group? y g with
    | none => rfl
    | some d => exact Coordinates.equals_comm c d eps

/-! ## Reserved groups -/

/-- A reserved group of zeros is not seen. -/
theorem groupEquals_reserve (hx : x.WellFormed A) (hy : y.WellFormed A) {g : Nat}
    (hg : g ≤ A.dimension) (heps : 0 ≤ eps) (k : Nat) :
    A.groupEquals (A.reserve x g) y eps k = A.groupEquals x y eps k := by
  rw [groupEquals, groupEquals, group?_reserve hx hg]
  by_cases hk : k = g
  · subst hk
    rw [if_pos rfl]
    cases A.group? x k with
    | some c => rfl
    | none =>
      cases hd : A.group? y k with
      | none => exact Coordinates.isZero_zeros _ heps
      | some d =>
        show (Coordinates.zeros (A.table.groupSize k)).equals d eps = d.isZero eps
        rw [Coordinates.equals_comm, ← hy.size_group hd, Coordinates.equals_zeros]
  · rw [if_neg hk]

omit [Scalar.ExactDistance α] in
theorem wellFormed_foldl_reserve (hx : x.WellFormed A) {gs : List Nat}
    (hgs : ∀ g ∈ gs, g ≤ A.dimension) : (gs.foldl A.reserve x).WellFormed A := by
  induction gs generalizing x with
  | nil => exact hx
  | cons g gs ih =>
    obtain ⟨hg, hgs⟩ := List.forall_mem_cons.mp hgs
    exact ih (wellFormed_reserve hx hg) hgs

/-- Nor are several groups, reserved one after the other. -/
theorem equals_foldl_reserve (hx : x.WellFormed A) (hy : y.WellFormed A) {gs : List Nat}
    (hgs : ∀ g ∈ gs, g ≤ A.dimension) (heps : 0 ≤ eps) :
    A.equals (gs.foldl A.reserve x) y eps = A.equals x y eps := by
  induction gs generalizing x with
  | nil => rfl
  | cons g gs ih =>
    obtain ⟨hg, hgs⟩ := List.forall_mem_cons.mp hgs
    rw [List.foldl_cons, ih (wellFormed_reserve hx hg) hgs]
    exact equals_congr (groupEquals_reserve hx hy hg heps)

/-- Whatever the coordinates and the bound: comparing is testing the difference for zero, and the
    order of the operands does not matter.  If the bound is not negative, groups of zeros reserved
    in either operand do not change the answer. -/
theorem comparison_by_difference (hx : x.WellFormed A) (hy : y.WellFormed A) (eps : α) :
    A.equals x y eps = (A.subtract x y).isZero eps ∧
      A.equals x y eps = A.equals y x eps ∧
      (0 ≤ eps → ∀ gs hs : List Nat, (∀ g ∈ gs, g ≤ A.dimension) → (∀ g ∈ hs, g ≤ A.dimension) →
        A.equals (gs.foldl A.reserve x) (hs.foldl A.reserve y) eps = A.equals x y eps) := by
  refine ⟨equals_eq_isZero_subtract x y eps, equals_comm x y eps, ?_⟩
  intro heps gs hs hgs hhs
  calc A.equals (gs.foldl A.reserve x) (hs.foldl A.reserve y) eps
      = A.equals x (hs.foldl A.reserve y) eps :=
        equals_foldl_reserve hx (wellFormed_foldl_reserve hy hhs) hgs heps
    _ = A.equals (hs.foldl A.reserve y) x eps := equals_comm ..
    _ = A.equals y x eps := equals_foldl_reserve hy hx hhs heps
    _ = A.equals x y eps := equals_comm ..

/-- A vector with an infinite coordinate is not within any bound of itself, and what is not a number
    is within no bound; a scalar and a vector are compared with zeros, reserved or not. -/
theorem comparison_space : ofConfig Config.e3ga = .ok space ∧
    let x : Multivector Float := ⟨2, #[1 / 0, 0, -0]⟩
    let y : Multivector Float := ⟨5, #[0.5, 0, 0 / 0, 2]⟩
    let z : Multivector Float := ⟨1, #[-0.5]⟩
    let v : Multivector Float := ⟨2, #[0.25, -0, 0.5]⟩
    x.WellFormed space ∧ y.WellFormed space ∧ z.WellFormed space ∧ v.WellFormed space ∧
      space.equals x x 1 = (space.subtract x x).isZero 1 ∧ space.equals x x 1 = false ∧
      space.equals y x 1 = space.equals x y 1 ∧ space.equals x y 1 = false ∧
      space.equals ([0, 3, 1].foldl space.reserve z) ([2, 0].foldl space.reserve v) 0.5 =
        space.equals z v 0.5 ∧
      space.equals z v 0.5 = true ∧ space.equals z v 0.25 = false := by
  have hx : Multivector.WellFormed space ⟨2, #[1 / 0, 0, -0]⟩ := by decide +kernel
  have hy : Multivector.WellFormed space ⟨5, #[0.5, 0, 0 / 0, 2]⟩ := by decide +kernel
  have hz : Multivector.WellFormed space ⟨1, #[-0.5]⟩ := by decide +kernel
  have hv : Multivector.WellFormed space ⟨2, #[0.25, -0, 0.5]⟩ := by decide +kernel
  obtain ⟨hself, -, -⟩ := comparison_by_difference hx hx 1
  obtain ⟨-, hcomm, -⟩ := comparison_by_difference hx hy 1
  obtain ⟨-, -, hreserve⟩ := comparison_by_difference hz hv 0.5
  exact ⟨ofConfig_space, hx, hy, hz, hv, hself, by decide +kernel, hcomm.symm, by decide +kernel,
    hreserve (by decide +kernel) _ _ (by decide) (by decide), by decide +kernel,
    by decide +kernel⟩

end Clifford

end GeometricAlgebra
