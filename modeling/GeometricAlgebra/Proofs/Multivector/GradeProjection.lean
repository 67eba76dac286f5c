/-
  GeometricAlgebra.Proofs.Multivector.GradeProjection

  Every product as a part of the geometric product, for coordinates of every kind.  Each group of a
  dense buffer is filled by the terms of its own tables, in the order of the walk over the operands;
  where a product keeps a group, these are the terms of the geometric product, so that the same sums
  are rounded in the same order.

    * `Clifford.denseGroup_modify`: a place of one group, seen from another.
    * `Clifford.denseGroup_foldl_partialProducts`: what two groups add to a group.
    * `Clifford.denseGroup_denseProduct`: a group of a product.
    * `Clifford.exists_of_has_product`: the grades of a product.
    * `Clifford.product_eq_extract`: products of single groups.
    * `Clifford.gradeProjection_of_ofConfig`: the laws for every accepted algebra.
-/

import GeometricAlgebra.Proofs.Multivector.DenseRoundtrip
import GeometricAlgebra.Proofs.Multivector.Value

namespace GeometricAlgebra

/-- Adds a term to the group it falls into, for the groups `c` and `d`. -/
def Coordinates.addTerm {α : Type} [Scalar α] (c d : Coordinates α) (group : Coordinates α)
    (t : ProductTerm α) : Coordinates α :=
  group.modify t.out (· + t.coeff * c.getD t.left 0 * d.getD t.right 0)

namespace Clifford

variable {α : Type} [Scalar α] {A : Clifford α} {kind : ProductKind} {x y : Multivector α}

/-! ## One group of a buffer -/

section Group

variable (hT : A.table.Lawful) {g : Nat} (hg : g ≤ A.table.dimension)
include hT hg

omit [Scalar α] in
/-- A change at a place of group `k` is seen in group `g` only if they are the same. -/
theorem denseGroup_modify {k a : Nat} (hk : k ≤ A.table.dimension)
    (ha : a < A.table.groupSize k) (f : α → α) (dense : Coordinates α) :
    A.denseGroup (dense.modify (A.table.denseStart k + a) f) g =
      if k = g then (A.denseGroup dense g).modify a f else A.denseGroup dense g := by
  by_cases hkg : k = g
  · subst hkg
    rw [if_pos rfl]
    apply Array.ext
    · simp [denseGroup]
    · intro b _ _
      simp [denseGroup, Array.getElem_modify]
  · rw [if_neg hkg]
    apply Array.ext
    · simp [denseGroup]
    · intro b hb _
      -- places of different groups are different, as their grades are
      have hplace : A.table.denseStart k + a ≠ A.table.denseStart g + b := by
        intro heq
        rw [denseGroup, Array.size_extract] at hb
        have hgrade := hT.gradeOf_add hk ha
        rw [heq, hT.gradeOf_add hg (by omega)] at hgrade
        exact hkg hgrade.symm
      simp [denseGroup, Array.getElem_modify, hplace]

/-- Terms of group `k`, one after the other. -/
theorem denseGroup_foldl_terms {k : Nat} (hk : k ≤ A.table.dimension) {ts : List (ProductTerm α)}
    (hts : ∀ t ∈ ts, t.out < A.table.groupSize k) (c d dense : Coordinates α) :
    A.denseGroup (ts.foldl (fun dense t => A.addProductTerm c d dense (k, t)) dense) g =
      if k = g then ts.foldl (c.addTerm d) (A.denseGroup dense g) else A.denseGroup dense g := by
  induction ts generalizing dense with
  | nil => simp
  | cons t ts ih =>
    obtain ⟨ht, hts⟩ := List.forall_mem_cons.mp hts
    rw [List.foldl_cons, ih hts, addProductTerm, denseGroup_modify hT hg hk ht, List.foldl_cons]
    by_cases hkg : k = g
    · simp only [if_pos hkg]
      rfl
    · simp only [if_neg hkg]

/-- Partial products for a list of different groups: at most one of them is for group `g`. -/
theorem denseGroup_foldl_groups (kind : ProductKind) (i j : Nat) (c d : Coordinates α)
    {ks : List Nat} (hks : ∀ k ∈ ks, k ≤ A.table.dimension) (hnodup : ks.Nodup)
    (dense : Coordinates α) :
    A.denseGroup ((ks.filterMap fun k => partialProduct? i j k (A.groupTerms kind i j k)).foldl
      (A.addPartialProduct c d) dense) g =
      if g ∈ ks then (A.groupTerms kind i j g).foldl (c.addTerm d) (A.denseGroup dense g)
      else A.denseGroup dense g := by
  induction ks generalizing dense with
  | nil => simp
  | cons k ks ih =>
    obtain ⟨hk, hks⟩ := List.forall_mem_cons.mp hks
    obtain ⟨hnotMem, hnodup⟩ := List.nodup_cons.mp hnodup
    have hsplit : (k :: ks).filterMap
        (fun k => partialProduct? i j k (A.groupTerms kind i j k)) =
        (partialProduct? i j k (A.groupTerms kind i j k)).toList ++
          ks.filterMap fun k => partialProduct? i j k (A.groupTerms kind i j k) := by
      rw [List.filterMap_cons]
      cases partialProduct? i j k (A.groupTerms kind i j k) <;> rfl
    rw [hsplit, List.foldl_append, ih hks hnodup, foldl_partialProduct?,
      denseGroup_foldl_terms hT hg hk fun t => out_lt_of_mem_groupTerms hT]
    by_cases hkg : k = g
    · subst hkg
      simp [hnotMem]
    · simp [hkg, Ne.symm hkg]

/-- Of all that two groups of the operands add to a buffer, group `g` gets its own terms. -/
theorem denseGroup_foldl_partialProducts (kind : ProductKind) (i j : Nat)
    (c d dense : Coordinates α) :
    A.denseGroup ((A.partialProducts kind i j).foldl (A.addPartialProduct c d) dense) g =
      (A.groupTerms kind i j g).foldl (c.addTerm d) (A.denseGroup dense g) := by
  rw [partialProducts_eq, denseGroup_foldl_groups hT hg kind i j c d
    (fun k => GradeTable.mem_groups.mp) List.nodup_range, if_pos (GradeTable.mem_groups.mpr hg)]

/-- A group of a product: the terms of all pairs of stored groups, row by row. -/
theorem denseGroup_denseProduct (kind : ProductKind) (x y : Multivector α) :
    A.denseGroup (A.denseProduct kind x y) g =
      (A.storedGroups x).foldl (fun group p => (A.storedGroups y).foldl (fun group q =>
        (A.groupTerms kind p.1 q.1 g).foldl (p.2.addTerm q.2) group) group)
        (A.denseGroup A.denseZeros g) := by
  rw [denseProduct_eq]
  symm
  refine List.foldl_hom (A.denseGroup · g) fun dense p => ?_
  refine List.foldl_hom (A.denseGroup · g) fun dense q => ?_
  exact (denseGroup_foldl_partialProducts hT hg kind p.1 q.1 p.2 q.2 dense).symm

/-- A group that two products keep for the same pairs of stored groups is the same in both. -/
theorem denseGroup_denseProduct_congr (kind kind' : ProductKind)
    (h : ∀ i j, x.grades.has i = true → y.grades.has j = true →
      kind.accepts i j g = kind'.accepts i j g) :
    A.denseGroup (A.denseProduct kind x y) g = A.denseGroup (A.denseProduct kind' x y) g := by
  rw [denseGroup_denseProduct hT hg, denseGroup_denseProduct hT hg]
  refine List.foldl_ext _ _ _ fun group p hp => List.foldl_ext _ _ _ fun group q hq => ?_
  rw [groupTerms_eq, groupTerms_eq A kind', h _ _ (has_of_mem_storedGroups hp)
    (has_of_mem_storedGroups hq)]

/-- A group without terms is not added to. -/
theorem denseGroup_denseProduct_of_no_terms
    (h : ∀ i j, x.grades.has i = true → y.grades.has j = true → A.groupTerms kind i j g = []) :
    A.denseGroup (A.denseProduct kind x y) g = A.denseGroup A.denseZeros g := by
  rw [denseGroup_denseProduct hT hg]
  refine List.foldlRecOn (motive := (· = A.denseGroup A.denseZeros g)) _ _ rfl ?_
  rintro _ rfl p hp
  refine List.foldlRecOn (motive := (· = A.denseGroup A.denseZeros g)) _ _ rfl ?_
  rintro _ rfl q hq
  rw [h _ _ (has_of_mem_storedGroups hp) (has_of_mem_storedGroups hq), List.foldl_nil]

end Group

/-! ## Products -/

theorem isZero_denseGroup_denseZeros [Scalar.ExactZero α] (g : Nat) :
    (A.denseGroup A.denseZeros g).isZero 0 = true := by
  rw [denseGroup, denseZeros, Coordinates.zeros, Array.extract_replicate]
  exact Coordinates.isZero_zeros _ Scalar.ExactZero.zero_le_zero

theorem group?_product (hT : A.table.Lawful) (kind : ProductKind) (x y : Multivector α) {g : Nat}
    (hg : g ≤ A.table.dimension) : A.group? (A.product kind x y) g =
      if (A.denseGroup (A.denseProduct kind x y) g).isZero 0 then none
      else some (A.denseGroup (A.denseProduct kind x y) g) := by
  rw [product, group?_compress hT (size_denseProduct kind x y).ge, has_keptGrades,
    GradeTable.has_fullSet.mpr hg, decide_eq_true hg]
  cases (A.denseGroup (A.denseProduct kind x y) g).isZero 0 <;> rfl

/-- A group of a product comes from two groups whose product it can be. -/
theorem exists_of_has_product [Scalar.ExactZero α] (hT : A.table.Lawful) {g : Nat}
    (h : (A.product kind x y).grades.has g = true) :
    ∃ i j, x.grades.has i = true ∧ y.grades.has j = true ∧ kind.accepts i j g = true ∧
      Blade.Triangle i j g ∧ (i + j + g) % 2 = 0 := by
  have hg := (wellFormed_product hT kind x y).le h
  by_contra hnone
  -- then the group has no terms, so it is zero and not stored
  have hterms : ∀ i j, x.grades.has i = true → y.grades.has j = true →
      A.groupTerms kind i j g = [] := by
    intro i j hi hj
    rw [List.eq_nil_iff_forall_not_mem]
    intro t ht
    exact hnone ⟨i, j, hi, hj, triangle_of_mem_productTerms hT (mem_groupTerms_iff.mp ht)⟩
  rw [← isSome_group? (A := A), group?_product hT kind x y hg,
    denseGroup_denseProduct_of_no_terms hT hg hterms, isZero_denseGroup_denseZeros,
    if_pos rfl] at h
  exact absurd h (by simp)

/-- Every product keeps the scalars that the scalar product keeps. -/
theorem sp_eq_scalarPart_gp (hT : A.table.Lawful) (x y : Multivector α) :
    A.sp x y = (A.gp x y).scalarPart := by
  have hgroup : A.denseGroup (A.denseProduct .scalar x y) 0 =
      A.denseGroup (A.denseProduct .geometric x y) 0 :=
    denseGroup_denseProduct_congr hT (Nat.zero_le _) .scalar .geometric fun i j _ _ => rfl
  rw [sp, ← coordinate_zero hT, ← coordinate_zero hT, gp, coordinate, coordinate,
    Blade.grade_zero, group?_product hT _ _ _ (Nat.zero_le _),
    group?_product hT _ _ _ (Nat.zero_le _), hgroup]

/-- The product of two groups is the part of their geometric product in the grades it keeps. -/
theorem product_eq_extract [Scalar.ExactZero α] (hT : A.table.Lawful) {i j : Nat} {mask : GradeSet}
    (hx : ∀ g, x.grades.has g = true → g = i) (hy : ∀ g, y.grades.has g = true → g = j)
    (hmask : ∀ g ≤ A.dimension, mask.has g = kind.accepts i j g) :
    A.product kind x y = A.extract (A.gp x y) mask := by
  have hgp : (A.gp x y).WellFormed A := wellFormed_product hT .geometric x y
  apply (wellFormed_product hT kind x y).ext (wellFormed_extract hgp mask)
  intro g hg
  have hstored : ∀ k l, x.grades.has k = true → y.grades.has l = true →
      kind.accepts k l g = kind.accepts i j g := fun k l hk hl => by rw [hx k hk, hy l hl]
  rw [group?_extract hgp, hmask g hg, group?_product hT _ _ _ hg]
  cases hkept : kind.accepts i j g with
  | true =>
    -- the same terms were added in the same order
    rw [if_pos rfl, denseGroup_denseProduct_congr hT hg kind .geometric fun k l hk hl =>
      (hstored k l hk hl).trans hkept]
    exact (group?_product hT .geometric x y hg).symm
  | false =>
    rw [denseGroup_denseProduct_of_no_terms hT hg, isZero_denseGroup_denseZeros]
    · rfl
    · intro k l hk hl
      rw [groupTerms_eq, hstored k l hk hl, hkept]
      rfl

/-- For every accepted algebra, whatever the coordinates: a product of two multivectors of one group
    each is the part of their geometric product in the grades that it keeps, coordinate for
    coordinate; and the scalar product of any two multivectors is the scalar of their geometric
    product. -/
theorem gradeProjection_of_ofConfig [Scalar.ExactZero α] {c : Config α} (h : ofConfig c = .ok A)
    (kind : ProductKind) (x y : Multivector α) :
    (∀ (i j : Nat) (mask : GradeSet), (∀ g, x.grades.has g = true → g = i) →
      (∀ g, y.grades.has g = true → g = j) →
      (∀ g ≤ A.dimension, mask.has g = kind.accepts i j g) →
      A.product kind x y = A.extract (A.gp x y) mask) ∧
    A.sp x y = (A.gp x y).scalarPart := by
  have hT := lawful_of_ofConfig h
  exact ⟨fun i j mask hx hy hmask => product_eq_extract hT hx hy hmask,
    sp_eq_scalarPart_gp hT x y⟩

/-- A vector with an infinite coordinate contracts a bivector: one coordinate is not a number, in the
    contraction as in the geometric product. -/
theorem gradeProjection_space : ofConfig Config.e3ga = .ok space ∧
    let x : Multivector Float := ⟨GradeSet.insert 0 1, #[1 / 0, 0.5, 0]⟩
    let y : Multivector Float := ⟨GradeSet.insert 0 2, #[1, 2, 0]⟩
    (∀ g, x.grades.has g = true → g = 1) ∧ (∀ g, y.grades.has g = true → g = 2) ∧
      (∀ g ≤ space.dimension, GradeSet.has 2 g = ProductKind.leftContraction.accepts 1 2 g) ∧
      space.lc x y = space.extract (space.gp x y) 2 ∧
      space.sp x y = (space.gp x y).scalarPart ∧
      space.gp x y = ⟨10, #[-0.5, 1 / 0, 0 / 0, 1 / 0]⟩ ∧
      space.lc x y = ⟨2, #[-0.5, 1 / 0, 0 / 0]⟩ := by
  have hx : ∀ g, GradeSet.has (GradeSet.insert 0 1) g = true → g = 1 := fun g hg => by simpa using hg
  have hy : ∀ g, GradeSet.has (GradeSet.insert 0 2) g = true → g = 2 := fun g hg => by simpa using hg
  have hmask : ∀ g ≤ space.dimension,
      GradeSet.has 2 g = ProductKind.leftContraction.accepts 1 2 g := by decide +kernel
  obtain ⟨hpart, hscalar⟩ := gradeProjection_of_ofConfig ofConfig_space .leftContraction
    ⟨GradeSet.insert 0 1, #[1 / 0, 0.5, 0]⟩ ⟨GradeSet.insert 0 2, #[1, 2, 0]⟩
  exact ⟨ofConfig_space, hx, hy, hmask, hpart 1 2 2 hx hy hmask, hscalar, by decide +kernel,
    by decide +kernel⟩

end Clifford

end GeometricAlgebra
