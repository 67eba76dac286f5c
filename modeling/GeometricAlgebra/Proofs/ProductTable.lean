/-
  GeometricAlgebra.Proofs.ProductTable

  The tables of the products, for coordinates of every kind.  The table of a product is that of the
  geometric product without the terms of grades that it does not keep; what stays is in the same
  order and at the same places.

    * `Clifford.productTerms_eq_filter`, `groupTerms_eq`: the terms of a product among those of the
      geometric product.
    * `Clifford.out_lt_of_mem_productTerms`, `triangle_of_mem_productTerms`: where results lie.
    * `Clifford.partialProducts_eq`: the partial products, one for each group that has terms.
    * `Clifford.addProductTerm`: a term added to a dense buffer.
-/

import GeometricAlgebra.Multivector.Product
import GeometricAlgebra.Proofs.Blade.Cocycle
import GeometricAlgebra.Proofs.Multivector.Groups

namespace GeometricAlgebra.Clifford

variable {α : Type} [Scalar α] {A : Clifford α} {kind : ProductKind} {i j : Nat}

/-! ## Terms -/

/-- The terms of groups `i` and `j` that fall into group `g`. -/
def groupTerms (A : Clifford α) (kind : ProductKind) (i j g : Nat) : List (ProductTerm α) :=
  ((A.productTerms kind i j).filter fun t => t.1 == g).map (·.2)

theorem mem_groupTerms_iff {g : Nat} {t : ProductTerm α} :
    t ∈ A.groupTerms kind i j g ↔ (g, t) ∈ A.productTerms kind i j := by
  simp [groupTerms]

/-- Whether a pair of blades contributes depends on the product by the grade of the result only. -/
theorem productTerm?_eq_filter (A : Clifford α) (kind : ProductKind) (i j a b : Nat) :
    A.productTerm? kind i j a b =
      (A.productTerm? .geometric i j a b).filter fun t => kind.accepts i j t.1 := by
  simp only [productTerm?, ProductKind.accepts.eq_1]
  generalize A.bladeProduct _ _ = p
  cases p.1 == 0 with
  | true => rfl
  | false => cases hk : kind.accepts i j (Blade.grade p.2) <;> simp [hk, Option.filter]

theorem productTerms_eq_filter (A : Clifford α) (kind : ProductKind) (i j : Nat) :
    A.productTerms kind i j =
      (A.productTerms .geometric i j).filter fun t => kind.accepts i j t.1 := by
  simp only [productTerms, List.filter_flatMap, List.filter_filterMap]
  refine List.flatMap_congr fun a _ => List.filterMap_congr fun b _ => ?_
  exact productTerm?_eq_filter A kind i j a b

/-- A product keeps all terms of a group or none. -/
theorem groupTerms_eq (A : Clifford α) (kind : ProductKind) (i j g : Nat) :
    A.groupTerms kind i j g =
      if kind.accepts i j g = true then A.groupTerms .geometric i j g else [] := by
  rw [groupTerms, productTerms_eq_filter, List.filter_filter, groupTerms]
  by_cases hg : kind.accepts i j g = true
  · rw [if_pos hg]
    congr 1
    refine List.filter_congr fun t _ => ?_
    by_cases ht : t.1 = g
    · simp [ht, hg]
    · simp [ht]
  · rw [if_neg hg, List.map_eq_nil_iff, List.filter_eq_nil_iff]
    rintro t - ht
    rw [Bool.and_eq_true, beq_iff_eq] at ht
    exact hg (ht.1 ▸ ht.2)

/-- A term belongs to the product of two blades of the groups, whose grade the product keeps. -/
theorem exists_of_mem_productTerms (hT : A.table.Lawful) {t : Nat × ProductTerm α}
    (ht : t ∈ A.productTerms kind i j) :
    ∃ p < 2 ^ A.table.dimension, ∃ q < 2 ^ A.table.dimension, Blade.grade p = i ∧
      Blade.grade q = j ∧ kind.accepts i j t.1 = true ∧ t.1 = Blade.grade (p ^^^ q) ∧
      t.2.out = A.localIndex (p ^^^ q) := by
  simp only [productTerms, List.mem_flatMap, List.mem_filterMap, List.mem_range] at ht
  obtain ⟨a, ha, b, hb, ht⟩ := ht
  -- a grade beyond the algebra has no blades, so both grades belong to it
  have hle : ∀ {k m : Nat}, m < A.table.groupSize k → k ≤ A.table.dimension := by
    intro k m hm
    by_contra hk
    rw [hT.groupSize_eq_zero (Nat.lt_of_not_le hk)] at hm
    exact absurd hm (Nat.not_lt_zero m)
  refine ⟨_, hT.blade_lt _ (hT.denseStart_add_lt (hle ha) ha), _,
    hT.blade_lt _ (hT.denseStart_add_lt (hle hb) hb), hT.gradeOf_add (hle ha) ha,
    hT.gradeOf_add (hle hb) hb, ?_⟩
  simp only [productTerm?] at ht
  split at ht
  · exact absurd ht (by simp)
  · next haccepts =>
    rw [Bool.or_eq_true, not_or, Bool.not_eq_true', Bool.not_eq_false] at haccepts
    rw [← Option.some.inj ht]
    exact ⟨haccepts.2, rfl, rfl⟩

/-- A term falls into a group of the algebra, at a place of that group. -/
theorem out_lt_of_mem_productTerms (hT : A.table.Lawful) {t : Nat × ProductTerm α}
    (ht : t ∈ A.productTerms kind i j) :
    t.1 ≤ A.table.dimension ∧ t.2.out < A.table.groupSize t.1 := by
  obtain ⟨p, hp, q, hq, -, -, -, hgrade, hout⟩ := exists_of_mem_productTerms hT ht
  have hlt := Nat.xor_lt_two_pow hp hq
  rw [hgrade, hout]
  exact ⟨Blade.grade_le hlt, localIndex_lt hT hlt⟩

/-- The grades of two blades and of their product are the sides of a triangle, of even extent. -/
theorem triangle_of_mem_productTerms (hT : A.table.Lawful) {t : Nat × ProductTerm α}
    (ht : t ∈ A.productTerms kind i j) :
    kind.accepts i j t.1 = true ∧ Blade.Triangle i j t.1 ∧ (i + j + t.1) % 2 = 0 := by
  obtain ⟨p, -, q, -, rfl, rfl, haccepts, hgrade, -⟩ := exists_of_mem_productTerms hT ht
  have hxor := Blade.grade_xor p q
  rw [hgrade] at haccepts ⊢
  exact ⟨haccepts, Blade.grade_triangle p q, by omega⟩

theorem out_lt_of_mem_groupTerms (hT : A.table.Lawful) {g : Nat} {t : ProductTerm α}
    (ht : t ∈ A.groupTerms kind i j g) : t.out < A.table.groupSize g := by
  exact (out_lt_of_mem_productTerms hT (mem_groupTerms_iff.mp ht)).2

/-! ## Partial products -/

/-- Adds a term to a dense buffer, for the groups `c` and `d`. -/
def addProductTerm (A : Clifford α) (c d : Coordinates α) (dense : Coordinates α)
    (t : Nat × ProductTerm α) : Coordinates α :=
  dense.modify (A.table.denseStart t.1 + t.2.out)
    (· + t.2.coeff * c.getD t.2.left 0 * d.getD t.2.right 0)

/-- The partial product of some terms, unless there are none. -/
def partialProduct? (i j k : Nat) (ts : List (ProductTerm α)) : Option (PartialProduct α) :=
  if ts.isEmpty then none else some ⟨i, j, k, ts⟩

theorem partialProducts_eq (A : Clifford α) (kind : ProductKind) (i j : Nat) :
    A.partialProducts kind i j =
      A.table.groups.filterMap fun g => partialProduct? i j g (A.groupTerms kind i j g) := by
  unfold partialProducts
  refine List.filterMap_congr fun g _ => ?_
  rw [groupTerms]
  generalize ((A.productTerms kind i j).filter fun t => t.1 == g).map (·.2) = ts
  cases ts <;> rfl

/-- A partial product is added term by term. -/
theorem foldl_partialProduct? (i j k : Nat) (ts : List (ProductTerm α))
    (c d dense : Coordinates α) :
    (partialProduct? i j k ts).toList.foldl (A.addPartialProduct c d) dense =
      ts.foldl (fun dense t => A.addProductTerm c d dense (k, t)) dense := by
  cases ts <;> rfl

end GeometricAlgebra.Clifford
