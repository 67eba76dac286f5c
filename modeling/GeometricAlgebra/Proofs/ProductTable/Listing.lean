/-
  GeometricAlgebra.Proofs.ProductTable.Listing

  What the tables of the products list, for coordinates of every kind.  The terms of two groups are
  those of the pairs of places whose product has a coefficient and a grade that is kept, row by row;
  sorting them by the group of their result moves them, but loses none and doubles none.

    * `Clifford.survivingPairs`: the pairs of places that contribute, in their order.
    * `Clifford.productTerms_eq_map`: the terms of two groups, one for each such pair.
    * `Clifford.perm_terms`: the partial products have the same terms.
    * `Clifford.exists_partialProduct_iff`: the groups of the results, through pairs of blades.
    * `Clifford.listsPairs_of_ofConfig`: the tables of every accepted algebra.
-/

import Mathlib.Data.List.Perm.Basic
import Mathlib.Data.List.ProdSigma
import GeometricAlgebra.Proofs.Multivector.NaiveProduct
import GeometricAlgebra.Proofs.ProductTable

namespace GeometricAlgebra

/-- Entries sorted by their keys, one key after the other, are the entries, rearranged. -/
theorem perm_flatMap_filter {β : Type} {ks : List Nat} (hks : ks.Nodup) {ts : List (Nat × β)}
    (h : ∀ t ∈ ts, t.1 ∈ ks) : (ks.flatMap fun k => ts.filter fun t => t.1 == k).Perm ts := by
  induction ks generalizing ts with
  | nil =>
    have hnil : ts = [] := List.eq_nil_iff_forall_not_mem.mpr fun t ht => List.not_mem_nil (h t ht)
    rw [hnil]
    rfl
  | cons k ks ih =>
    obtain ⟨hk, hks⟩ := List.nodup_cons.mp hks
    have hothers : ∀ t ∈ ts.filter fun t => !(t.1 == k), t.1 ∈ ks := by
      intro t ht
      obtain ⟨ht, hne⟩ := List.mem_filter.mp ht
      exact (List.mem_cons.mp (h t ht)).resolve_left (by simpa using hne)
    have hkeys : (ks.flatMap fun l => ts.filter fun t => t.1 == l) =
        ks.flatMap fun l => (ts.filter fun t => !(t.1 == k)).filter fun t => t.1 == l := by
      refine List.flatMap_congr fun l hl => ?_
      rw [List.filter_filter]
      refine List.filter_congr fun t _ => ?_
      by_cases htl : t.1 = l
      · have hlk : l ≠ k := fun hlk => hk (hlk ▸ hl)
        simp [htl, hlk]
      · simp [htl]
    -- the entries of the first key, then those of the others
    rw [List.flatMap_cons, hkeys]
    exact ((ih hks hothers).append_left _).trans (List.filter_append_perm _ _)

namespace Clifford

variable {α : Type} [Scalar α] {A : Clifford α} {kind : ProductKind} {i j : Nat}

/-! ## Pairs of places -/

/-- The blade of the product of the stored blades at place `a` of group `i` and at place `b` of
    group `j`. -/
def resultBlade (A : Clifford α) (i j a b : Nat) : Blade :=
  A.table.blade (A.table.denseStart i + a) ^^^ A.table.blade (A.table.denseStart j + b)

/-- The coefficient of that product is not zero, and its grade is kept. -/
def Survives (A : Clifford α) (kind : ProductKind) (i j a b : Nat) : Prop :=
  ((A.bladeProduct (A.table.blade (A.table.denseStart i + a))
    (A.table.blade (A.table.denseStart j + b))).1 == 0) = false ∧
  kind.accepts i j (A.resultBlade i j a b).grade = true

instance (a b : Nat) : Decidable (A.Survives kind i j a b) :=
  inferInstanceAs (Decidable (_ ∧ _))

/-- The term of a pair of places, with the grade of its result. -/
def pairTerm (A : Clifford α) (i j a b : Nat) : Nat × ProductTerm α :=
  let p := A.table.denseStart i + a
  let q := A.table.denseStart j + b
  let r := A.table.index (A.resultBlade i j a b)
  ((A.resultBlade i j a b).grade,
    { left := a
      right := b
      out := A.localIndex (A.resultBlade i j a b)
      coeff := (A.bladeProduct (A.table.blade p) (A.table.blade q)).1 *
        (A.table.sign p).toScalar * (A.table.sign q).toScalar * (A.table.sign r).toScalar })

/-- The pairs of places that contribute, by ascending left and then right place. -/
def survivingPairs (A : Clifford α) (kind : ProductKind) (i j : Nat) : List (Nat × Nat) :=
  ((List.range (A.table.groupSize i)).product (List.range (A.table.groupSize j))).filter
    fun p => A.Survives kind i j p.1 p.2

theorem mem_survivingPairs {a b : Nat} : (a, b) ∈ A.survivingPairs kind i j ↔
    a < A.table.groupSize i ∧ b < A.table.groupSize j ∧ A.Survives kind i j a b := by
  rw [survivingPairs, List.mem_filter, List.pair_mem_product, List.mem_range, List.mem_range,
    decide_eq_true_eq, and_assoc]

/-- The pairs stand in lexicographic order. -/
theorem pairwise_survivingPairs : (A.survivingPairs kind i j).Pairwise fun p q =>
    p.1 < q.1 ∨ p.1 = q.1 ∧ p.2 < q.2 := by
  apply List.Pairwise.filter
  rw [List.product, List.pairwise_flatMap]
  refine ⟨fun a _ => ?_, List.pairwise_lt_range.imp fun {a a'} hlt p hp q hq => ?_⟩
  · exact List.pairwise_map.mpr (List.pairwise_lt_range.imp fun hlt => .inr ⟨rfl, hlt⟩)
  · obtain ⟨b, -, rfl⟩ := List.mem_map.mp hp
    obtain ⟨b', -, rfl⟩ := List.mem_map.mp hq
    exact .inl hlt

theorem nodup_survivingPairs : (A.survivingPairs kind i j).Nodup :=
  (List.nodup_range.product List.nodup_range).filter _

/-! ## Terms -/

theorem productTerm?_eq (A : Clifford α) (kind : ProductKind) (i j a b : Nat) :
    A.productTerm? kind i j a b =
      if A.Survives kind i j a b then some (A.pairTerm i j a b) else none := by
  have hiff : A.Survives kind i j a b ↔
      ¬ ((A.bladeProduct (A.table.blade (A.table.denseStart i + a))
          (A.table.blade (A.table.denseStart j + b))).1 == 0 ||
        !kind.accepts i j (A.resultBlade i j a b).grade) = true := by
    rw [Survives, Bool.or_eq_true, not_or, Bool.not_eq_true, Bool.not_eq_true', Bool.not_eq_false]
  by_cases h : A.Survives kind i j a b
  · rw [if_pos h]
    exact if_neg (hiff.mp h)
  · rw [if_neg h]
    exact if_pos (not_not.mp (mt hiff.mpr h))

/-- The terms of two groups, one for each pair of places that contributes. -/
theorem productTerms_eq_map (A : Clifford α) (kind : ProductKind) (i j : Nat) :
    A.productTerms kind i j = (A.survivingPairs kind i j).map fun p => A.pairTerm i j p.1 p.2 := by
  rw [productTerms, survivingPairs, List.product, List.filter_flatMap, List.map_flatMap]
  refine List.flatMap_congr fun a _ => ?_
  rw [List.filter_map, List.map_map, ← List.filterMap_eq_map, List.filterMap_filter]
  refine List.filterMap_congr fun b _ => ?_
  rw [productTerm?_eq]
  by_cases h : A.Survives kind i j a b
  · simp [h]
  · simp [h]

theorem mem_groupTerms_iff_exists {g : Nat} {t : ProductTerm α} :
    t ∈ A.groupTerms kind i j g ↔
      ∃ p ∈ A.survivingPairs kind i j, A.pairTerm i j p.1 p.2 = (g, t) := by
  rw [mem_groupTerms_iff, productTerms_eq_map, List.mem_map]

theorem mem_partialProducts_iff {p : PartialProduct α} : p ∈ A.partialProducts kind i j ↔
    ∃ g ≤ A.table.dimension, A.groupTerms kind i j g ≠ [] ∧
      p = ⟨i, j, g, A.groupTerms kind i j g⟩ := by
  rw [partialProducts_eq, List.mem_filterMap]
  refine exists_congr fun g => ?_
  rw [GradeTable.mem_groups, partialProduct?]
  cases A.groupTerms kind i j g with
  | nil => simp
  | cons t ts => simp [eq_comm]

/-- A term of a partial product is that of a pair of places that contributes. -/
theorem exists_pair_of_mem {p : PartialProduct α} (hp : p ∈ A.partialProducts kind i j)
    {t : ProductTerm α} (ht : t ∈ p.terms) :
    ∃ a b, (a, b) ∈ A.survivingPairs kind i j ∧ A.pairTerm i j a b = (p.out, t) := by
  obtain ⟨g, -, -, rfl⟩ := mem_partialProducts_iff.mp hp
  obtain ⟨⟨a, b⟩, hab, heq⟩ := mem_groupTerms_iff_exists.mp ht
  exact ⟨a, b, hab, heq⟩

/-- The term of a pair that contributes is in the partial product of its group. -/
theorem exists_mem_of_pair {a b : Nat} (hab : (a, b) ∈ A.survivingPairs kind i j)
    (hgrade : (A.resultBlade i j a b).grade ≤ A.table.dimension) :
    ∃ p ∈ A.partialProducts kind i j, p.out = (A.resultBlade i j a b).grade ∧
      (A.pairTerm i j a b).2 ∈ p.terms := by
  have hmem := mem_groupTerms_iff_exists.mpr ⟨(a, b), hab, rfl⟩
  exact ⟨_, mem_partialProducts_iff.mpr ⟨_, hgrade, List.ne_nil_of_mem hmem, rfl⟩, rfl, hmem⟩

/-- The terms of the partial products, one partial product after the other. -/
theorem flatMap_terms (A : Clifford α) (kind : ProductKind) (i j : Nat) :
    (A.partialProducts kind i j).flatMap (·.terms) =
      A.table.groups.flatMap fun g => A.groupTerms kind i j g := by
  rw [partialProducts_eq]
  induction A.table.groups with
  | nil => rfl
  | cons g gs ih =>
    rw [List.filterMap_cons, List.flatMap_cons, ← ih, partialProduct?]
    cases A.groupTerms kind i j g <;> rfl

/-- The partial products have the terms of the two groups, rearranged. -/
theorem perm_terms (hT : A.table.Lawful) (kind : ProductKind) (i j : Nat) :
    ((A.partialProducts kind i j).flatMap (·.terms)).Perm
      ((A.productTerms kind i j).map (·.2)) := by
  have hkeys : ∀ t ∈ A.productTerms kind i j, t.1 ∈ A.table.groups := fun t ht =>
    GradeTable.mem_groups.mpr (out_lt_of_mem_productTerms hT ht).1
  have hperm := (perm_flatMap_filter List.nodup_range hkeys).map (·.2)
  rw [List.map_flatMap] at hperm
  rw [flatMap_terms]
  exact hperm

/-! ## Blades of the pairs -/

section Blades

variable (hT : A.table.Lawful)
include hT

omit [Scalar α] in
/-- A blade is stored at its place in the group of its grade. -/
theorem blade_place {b : Nat} (hb : b < 2 ^ A.table.dimension) :
    A.table.blade (A.table.denseStart (Blade.grade b) + A.localIndex b) = b := by
  rw [localIndex, Nat.add_sub_cancel' (hT.denseStart_le_index hb).1, hT.blade_index b hb]

omit [Scalar α] in
theorem resultBlade_lt {a b : Nat} (hi : i ≤ A.table.dimension) (hj : j ≤ A.table.dimension)
    (ha : a < A.table.groupSize i) (hb : b < A.table.groupSize j) :
    A.resultBlade i j a b < 2 ^ A.table.dimension :=
  Nat.xor_lt_two_pow (hT.blade_lt _ (hT.denseStart_add_lt hi ha))
    (hT.blade_lt _ (hT.denseStart_add_lt hj hb))

/-- The groups of the results are the grades that the product keeps of the products of two blades
    of the given grades. -/
theorem exists_partialProduct_iff (hi : i ≤ A.table.dimension) (hj : j ≤ A.table.dimension)
    {k : Nat} : (∃ p ∈ A.partialProducts kind i j, p.out = k) ↔
      kind.accepts i j k = true ∧ ∃ p < 2 ^ A.table.dimension, ∃ q < 2 ^ A.table.dimension,
        Blade.grade p = i ∧ Blade.grade q = j ∧ Blade.grade (p ^^^ q) = k ∧
          ((A.bladeProduct p q).1 == 0) = false := by
  constructor
  · rintro ⟨_, hp, rfl⟩
    obtain ⟨g, -, hterms, rfl⟩ := mem_partialProducts_iff.mp hp
    obtain ⟨t, ht⟩ := List.exists_mem_of_ne_nil _ hterms
    obtain ⟨a, b, hab, heq⟩ := exists_pair_of_mem hp ht
    obtain ⟨ha, hb, hcoeff, haccepts⟩ := mem_survivingPairs.mp hab
    have hgrade : (A.resultBlade i j a b).grade = g := congrArg Prod.fst heq
    refine ⟨hgrade ▸ haccepts, _, hT.blade_lt _ (hT.denseStart_add_lt hi ha), _,
      hT.blade_lt _ (hT.denseStart_add_lt hj hb), hT.gradeOf_add hi ha, hT.gradeOf_add hj hb,
      hgrade, hcoeff⟩
  · rintro ⟨haccepts, p, hp, q, hq, rfl, rfl, rfl, hcoeff⟩
    have hresult : A.resultBlade (Blade.grade p) (Blade.grade q) (A.localIndex p)
        (A.localIndex q) = p ^^^ q := by
      rw [resultBlade, blade_place hT hp, blade_place hT hq]
    have hpair : (A.localIndex p, A.localIndex q) ∈
        A.survivingPairs kind (Blade.grade p) (Blade.grade q) := by
      refine mem_survivingPairs.mpr ⟨localIndex_lt hT hp, localIndex_lt hT hq, ?_, ?_⟩
      · rw [blade_place hT hp, blade_place hT hq]
        exact hcoeff
      · rw [hresult]
        exact haccepts
    have hgrade := Blade.grade_le (Nat.xor_lt_two_pow hp hq)
    rw [← hresult] at hgrade ⊢
    obtain ⟨r, hr, hout, -⟩ := exists_mem_of_pair hpair hgrade
    exact ⟨r, hr, hout⟩

end Blades

/-! ## The tables -/

/-- The table of the groups `i` and `j` lists the pairs of places whose product survives, each once
    and in range. -/
structure ListsPairs (A : Clifford α) (kind : ProductKind) (i j : Nat) : Prop where
  -- The partial products belong to the two groups, and none is empty.
  groups : ∀ p ∈ A.partialProducts kind i j,
    p.left = i ∧ p.right = j ∧ p.out ≤ A.dimension ∧ p.terms ≠ []
  ascending : (A.partialProducts kind i j).Pairwise fun p q => p.out < q.out
  -- Every place of a term lies in its group.
  inRange : ∀ p ∈ A.partialProducts kind i j, ∀ t ∈ p.terms, t.left < A.table.groupSize i ∧
    t.right < A.table.groupSize j ∧ t.out < A.table.groupSize p.out
  -- No pair of places has two terms, whatever partial products they belong to.
  once : ((A.partialProducts kind i j).flatMap fun p =>
    p.terms.map fun t => (t.left, t.right)).Nodup
  -- The pairs with a term are those that survive.
  occurs_iff : ∀ a < A.table.groupSize i, ∀ b < A.table.groupSize j,
    (∃ p ∈ A.partialProducts kind i j, ∃ t ∈ p.terms, t.left = a ∧ t.right = b) ↔
      A.Survives kind i j a b
  -- A term lies where the blade of its product is stored, and that is behind the start of its group.
  result : ∀ p ∈ A.partialProducts kind i j, ∀ t ∈ p.terms,
    let r := A.resultBlade i j t.left t.right
    r < 2 ^ A.dimension ∧ p.out = r.grade ∧ A.table.denseStart p.out ≤ A.table.index r ∧
      t.out = A.table.index r - A.table.denseStart p.out
  -- The terms of a partial product ascend, first by the left and then by the right place.
  ordered : ∀ p ∈ A.partialProducts kind i j, p.terms.Pairwise fun t u =>
    t.left < u.left ∨ t.left = u.left ∧ t.right < u.right

/-- The groups of the partial products ascend. -/
theorem pairwise_partialProducts :
    (A.partialProducts kind i j).Pairwise fun p q => p.out < q.out := by
  have hout : ∀ g, ∀ p ∈ partialProduct? i j g (A.groupTerms kind i j g), p.out = g := by
    intro g p hp
    rw [partialProduct?] at hp
    split at hp
    · exact absurd hp (by simp)
    · rw [← Option.mem_some.mp hp]
  rw [partialProducts_eq, List.pairwise_filterMap]
  refine List.pairwise_lt_range.imp fun {g g'} hlt p hp q hq => ?_
  rw [hout g p hp, hout g' q hq]
  exact hlt

/-- The terms of one group ascend with their pairs. -/
theorem pairwise_groupTerms (g : Nat) : (A.groupTerms kind i j g).Pairwise fun t u =>
    t.left < u.left ∨ t.left = u.left ∧ t.right < u.right := by
  rw [groupTerms, List.pairwise_map, productTerms_eq_map]
  apply List.Pairwise.filter
  exact List.pairwise_map.mpr pairwise_survivingPairs

/-- The pairs of the terms are the surviving pairs, each of them once. -/
theorem nodup_pairs_partialProducts (hT : A.table.Lawful) :
    ((A.partialProducts kind i j).flatMap fun p => p.terms.map fun t => (t.left, t.right)).Nodup := by
  have hperm := (perm_terms hT kind i j).map fun t => (t.left, t.right)
  rw [List.map_flatMap, List.map_map, productTerms_eq_map, List.map_map] at hperm
  have hpairs : (A.survivingPairs kind i j).map
      (((fun t : ProductTerm α => (t.left, t.right)) ∘ (·.2)) ∘ fun p => A.pairTerm i j p.1 p.2) =
      A.survivingPairs kind i j := List.map_id _
  rw [hpairs] at hperm
  exact hperm.nodup_iff.mpr nodup_survivingPairs

/-- For every accepted algebra, every product and all groups `i` and `j`: the table lists the pairs
    of places whose product has a coefficient and a grade that is kept, each of them exactly once,
    by ascending group of the result and in order within a group; and all its places lie in their
    groups. -/
theorem listsPairs_of_ofConfig {c : Config α} (h : ofConfig c = .ok A) (kind : ProductKind)
    (hi : i ≤ A.dimension) (hj : j ≤ A.dimension) : A.ListsPairs kind i j := by
  have hT := lawful_of_ofConfig h
  exact {
    groups := fun p hp => by
      obtain ⟨g, hg, hterms, rfl⟩ := mem_partialProducts_iff.mp hp
      exact ⟨rfl, rfl, hg, hterms⟩
    ascending := pairwise_partialProducts
    inRange := fun p hp t ht => by
      obtain ⟨a, b, hab, heq⟩ := exists_pair_of_mem hp ht
      obtain ⟨ha, hb, -⟩ := mem_survivingPairs.mp hab
      obtain ⟨hout, rfl⟩ := Prod.mk.inj heq
      rw [← hout]
      exact ⟨ha, hb, localIndex_lt hT (resultBlade_lt hT hi hj ha hb)⟩
    once := nodup_pairs_partialProducts hT
    occurs_iff := fun a ha b hb => by
      constructor
      · rintro ⟨p, hp, t, ht, rfl, rfl⟩
        obtain ⟨a, b, hab, heq⟩ := exists_pair_of_mem hp ht
        obtain ⟨-, rfl⟩ := Prod.mk.inj heq
        exact (mem_survivingPairs.mp hab).2.2
      · intro hsurvives
        obtain ⟨p, hp, -, hmem⟩ := exists_mem_of_pair
          (mem_survivingPairs.mpr ⟨ha, hb, hsurvives⟩)
          (Blade.grade_le (resultBlade_lt hT hi hj ha hb))
        exact ⟨p, hp, _, hmem, rfl, rfl⟩
    result := fun p hp t ht => by
      obtain ⟨a, b, hab, heq⟩ := exists_pair_of_mem hp ht
      obtain ⟨ha, hb, -⟩ := mem_survivingPairs.mp hab
      obtain ⟨hout, rfl⟩ := Prod.mk.inj heq
      have hlt := resultBlade_lt hT hi hj ha hb
      rw [← hout]
      exact ⟨hlt, rfl, (hT.denseStart_le_index hlt).1, rfl⟩
    ordered := fun p hp => by
      obtain ⟨g, -, -, rfl⟩ := mem_partialProducts_iff.mp hp
      exact pairwise_groupTerms g }

/-- In a degenerate plane the square of `e0` has no term, and `e2^e0` is stored as it is named. -/
theorem listsPairs_degeneratePlane : ofConfig Config.degeneratePlane = .ok degeneratePlane ∧
    degeneratePlane.ListsPairs .geometric 1 1 ∧
      degeneratePlane.partialProducts .geometric 1 1 =
        [⟨1, 1, 0, [⟨1, 1, 0, 1⟩, ⟨2, 2, 0, -1⟩]⟩,
          ⟨1, 1, 2, [⟨0, 1, 0, 1⟩, ⟨0, 2, 2, -1⟩, ⟨1, 0, 0, -1⟩, ⟨1, 2, 1, 1⟩, ⟨2, 0, 2, 1⟩,
            ⟨2, 1, 1, -1⟩]⟩] := by
  have hA := ofConfig_degeneratePlane
  exact ⟨hA, listsPairs_of_ofConfig hA .geometric (by decide) (by decide), by decide +kernel⟩

end Clifford

end GeometricAlgebra
