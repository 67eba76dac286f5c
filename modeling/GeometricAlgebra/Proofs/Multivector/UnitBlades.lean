/-
  GeometricAlgebra.Proofs.Multivector.UnitBlades

  Outer products of unit blades in rounding arithmetic.  A signed unit blade has one coordinate that
  is no zero, so of all the terms that a product adds up one at most is no zero; the others leave a
  buffer without negative zeros as it is.

    * `Coordinates.Plain`: no negative zeros.
    * `Clifford.unitAt`: the values of a signed unit blade.
    * `Clifford.productTerm?_outer`: the terms of outer products.
    * `Clifford.denseProduct_unit`: the outer product of two signed unit blades as a buffer.
    * `Clifford.represents_op_unit`, `represents_op_unit_of_shared`, `represents_op_zero`: what it
      represents.
-/

import GeometricAlgebra.Proofs.Blade.Exterior
import GeometricAlgebra.Proofs.Multivector.Represents
import GeometricAlgebra.Proofs.ProductTable

namespace GeometricAlgebra

open Scalar Scalar.ExactSigns

variable {α : Type} [Scalar α]

namespace Coordinates

/-- Every zero is the positive one. -/
def Plain (d : Coordinates α) : Prop := ∀ i (hi : i < d.size), (d[i] == 0) = true → d[i] = 0

theorem plain_zeros (n : Nat) : (zeros n : Coordinates α).Plain := fun i hi _ => by simp [zeros]

variable [ExactSigns α]

/-- Adding a zero to a place changes nothing. -/
theorem modify_zero {d : Coordinates α} (hd : d.Plain) {z : α} (hz : (z == 0) = true) (i : Nat) :
    d.modify i (· + z) = d := by
  apply Array.ext
  · exact Array.size_modify
  · intro j _ hj
    rw [Array.getElem_modify]
    split
    · cases hzero : d[j] == 0 with
      | true => rw [hd j hj hzero, zero_add_zero hz]
      | false => rw [Scalar.ExactSigns.add_zero hzero hz]
    · rfl

theorem plain_modify_zeros {n i : Nat} {v : α} (hv : (v == 0) = false) :
    Plain ((zeros n).modify i (· + v)) := by
  intro j hj hzero
  rw [Array.getElem_modify] at hzero ⊢
  simp only [zeros, Array.getElem_replicate] at hzero ⊢
  split at hzero
  · rw [Scalar.ExactSigns.zero_add hv, hv] at hzero
    exact absurd hzero (by decide)
  · rename_i hij
    rw [if_neg hij]

theorem getD_modify_zeros {n i : Nat} {v : α} (hv : (v == 0) = false) {j : Nat} (hj : j < n) :
    ((zeros n).modify i (· + v)).getD j 0 = if j = i then v else 0 := by
  have hsize : j < ((zeros n : Coordinates α).modify i (· + v)).size := by
    rwa [Array.size_modify, zeros, Array.size_replicate]
  rw [← Array.getElem_eq_getD (h := hsize), Array.getElem_modify]
  simp only [zeros, Array.getElem_replicate, eq_comm (a := i)]
  split
  · exact Scalar.ExactSigns.zero_add hv
  · rfl

/-- Of several terms, those that are zeros leave a plain buffer as it is. -/
theorem foldl_modify_zero {β : Type} {place : β → Nat} {value : β → α} {bs : List β}
    (hbs : ∀ b ∈ bs, (value b == 0) = true) {d : Coordinates α} (hd : d.Plain) :
    bs.foldl (fun d b => d.modify (place b) (· + value b)) d = d := by
  induction bs with
  | nil => rfl
  | cons b bs ih =>
    obtain ⟨hb, hbs⟩ := List.forall_mem_cons.mp hbs
    rw [List.foldl_cons, modify_zero hd hb, ih hbs]

end Coordinates

/-- Nothing is stored below the only grade. -/
theorem GradeTable.Lawful.offset_insert_zero {T : GradeTable} (hT : T.Lawful) (g : Nat) :
    T.offset (GradeSet.insert 0 g) g = 0 := by
  rw [hT.offset_eq]
  simp

namespace Clifford

/-! ## Signed unit blades -/

/-- The values of a signed unit blade, stored at `place`. -/
def unitAt (place : Nat) (s : Sign) (r : Nat) : α := if r = place then s.toScalar else 0

variable {A : Clifford α} {x y : Multivector α}

/-- Its only value that is no zero is in the grade of its blade. -/
theorem exists_unitAt_iff [ExactSigns α] {p : Nat} (hp : p < 2 ^ A.table.dimension) {s : Sign}
    {g : Nat} : (∃ r < 2 ^ A.table.dimension, A.table.gradeOf r = g ∧
      ((unitAt p s r : α) == 0) = false) ↔ g = A.table.gradeOf p := by
  constructor
  · rintro ⟨r, hr, rfl, hne⟩
    by_cases hrp : r = p
    · rw [hrp]
    · rw [unitAt, if_neg hrp, zero_beq_zero] at hne
      exact absurd hne (by decide)
  · rintro rfl
    exact ⟨p, hp, rfl, by rw [unitAt, if_pos rfl, Sign.toScalar_beq_zero]⟩

theorem reserve_zero (g : Nat) : A.reserve .zero g =
    ⟨GradeSet.insert 0 g, Coordinates.zeros (A.table.groupSize g)⟩ := by
  simp [reserve, Multivector.zero, Coordinates.zeros]

/-- A basis vector stores the group of vectors, with a one at its place. -/
theorem basisVector_eq (hT : A.table.Lawful) (i : Nat) : A.basisVector i = ⟨GradeSet.insert 0 1,
      (Coordinates.zeros A.dimension).setIfInBounds (A.localIndex (.ofVector i)) 1⟩ := by
  simp only [basisVector, setCoordinate, Blade.grade_ofVector, reserve_zero, hT.groupSize_one,
    hT.offset_insert_zero, Nat.zero_add]
  rfl

/-- The values of a basis vector. -/
theorem represents_basisVector [ExactSigns α] (hT : A.table.Lawful) {i : Nat}
    (hi : i < A.dimension) :
    A.Represents (A.basisVector i) (unitAt (A.table.index (.ofVector i)) .plus) := by
  have hb : Blade.ofVector i < 2 ^ A.table.dimension := Blade.ofVector_lt hi
  have hgrade : Blade.grade (.ofVector i) = 1 := Blade.grade_ofVector i
  have hplace := hT.denseStart_le_index hb
  rw [hgrade, hT.groupSize_one] at hplace
  have hlocal : A.localIndex (.ofVector i) =
      A.table.index (.ofVector i) - A.table.denseStart 1 := by
    rw [localIndex, hgrade]
  have hhas : ∀ g, (A.basisVector i).grades.has g = decide (g = 1) := by
    intro g
    rw [basisVector_eq hT, GradeSet.has_insert, GradeSet.has_zero, Bool.false_or]
  have hindex : A.table.gradeOf (A.table.index (.ofVector i)) = 1 := by
    rw [GradeTable.gradeOf, hT.blade_index _ hb, hgrade]
  refine ⟨wellFormed_basisVector hi, fun r hr => ?_, fun g => ?_⟩
  · obtain ⟨g, hg, a, ha, hrg, rfl⟩ := hT.exists_place hr
    rw [entry_place hT (wellFormed_basisVector hi) hg ha]
    by_cases hg1 : g = 1
    · subst hg1
      have hgroup : (A.group? (A.basisVector i) 1).getD #[] =
          (Coordinates.zeros A.dimension).setIfInBounds (A.localIndex (.ofVector i)) 1 := by
        rw [group?_of_has (by rw [hhas, decide_eq_true rfl]), hT.groupSize_one,
          basisVector_eq hT, hT.offset_insert_zero, Option.getD_some, Nat.zero_add]
        exact Array.extract_eq_self_of_le (by simp [Coordinates.zeros, dimension])
      have hplaces : A.table.denseStart 1 + a = A.table.index (.ofVector i) ↔
          A.localIndex (.ofVector i) = a := by omega
      rw [hT.groupSize_one] at ha
      have ha' : a < A.dimension := ha
      rw [hgroup, unitAt]
      by_cases hai : A.localIndex (.ofVector i) = a
      · rw [if_pos (hplaces.mpr hai)]
        simp [hai, Coordinates.zeros, Array.getD_eq_getD_getElem?, ha', Sign.toScalar]
      · rw [if_neg (fun h => hai (hplaces.mp h))]
        simp [hai, Coordinates.zeros, Array.getD_eq_getD_getElem?, ha']
    · rw [group?_of_not_has (by rw [hhas, decide_eq_false hg1]), unitAt, if_neg]
      · rfl
      · rintro hindex'
        rw [hindex', hindex] at hrg
        exact hg1 hrg.symm
  · rw [hhas, decide_eq_true_eq, exists_unitAt_iff (hT.index_lt _ hb), hindex]

section Unit

variable [ExactSigns α] (hT : A.table.Lawful) {p q : Nat} {s t : Sign}
include hT

/-- A signed unit blade stores one group. -/
theorem storedGroups_of_unit (hx : A.Represents x (unitAt p s)) (hp : p < 2 ^ A.table.dimension) :
    ∃ c, A.storedGroups x = [(A.table.gradeOf p, c)] ∧
      ∀ a < A.table.groupSize (A.table.gradeOf p),
        c.getD a 0 = unitAt p s (A.table.denseStart (A.table.gradeOf p) + a) := by
  have hg := hT.gradeOf_le hp
  have hgrades : ∀ g, x.grades.has g = decide (g = A.table.gradeOf p) := by
    intro g
    rw [Bool.eq_iff_iff, hx.has_iff, decide_eq_true_eq, exists_unitAt_iff hp]
  have hfilter : A.table.groups.filter x.grades.has = [A.table.gradeOf p] := by
    obtain ⟨above, hgroups, habove⟩ := GradeTable.groups_split hg
    have hbelow : (List.range (A.table.gradeOf p)).filter x.grades.has = [] := by
      rw [List.filter_eq_nil_iff]
      intro g hlt
      rw [hgrades, decide_eq_true_eq]
      exact Nat.ne_of_lt (List.mem_range.mp hlt)
    have hrest : above.filter x.grades.has = [] := by
      rw [List.filter_eq_nil_iff]
      intro g hgt
      rw [hgrades, decide_eq_true_eq]
      exact Nat.ne_of_gt (habove g hgt)
    rw [hgroups, List.filter_append, hbelow, List.filter_cons_of_pos (by simp [hgrades]), hrest]
    rfl
  refine ⟨(A.group? x (A.table.gradeOf p)).getD #[], ?_, ?_⟩
  · rw [storedGroups_eq, hfilter]
    rfl
  · intro a ha
    rw [← entry_place hT hx.wellFormed hg ha, hx.entry_eq _ (hT.denseStart_add_lt hg ha)]

end Unit

/-- The terms of outer products: blades without a shared vector are sorted, others are dropped. -/
theorem productTerm?_outer [ExactSigns α] (hT : A.table.Lawful) {i j a b : Nat}
    (hi : i ≤ A.table.dimension) (hj : j ≤ A.table.dimension) (ha : a < A.table.groupSize i)
    (hb : b < A.table.groupSize j) {p q : Nat} (hp : A.table.denseStart i + a = p)
    (hq : A.table.denseStart j + b = q) :
    A.productTerm? .outer i j a b =
      if A.table.blade p &&& A.table.blade q = 0 then
        some (i + j,
          { left := a
            right := b
            out := A.table.index (A.table.blade p ^^^ A.table.blade q) - A.table.denseStart (i + j)
            coeff := (Blade.reorderingSign (A.table.blade p) (A.table.blade q) * A.table.sign p *
              A.table.sign q * A.table.signOf (A.table.blade p ^^^ A.table.blade q)).toScalar })
      else none := by
  have hgp : Blade.grade (A.table.blade p) = i := hp ▸ hT.gradeOf_add hi ha
  have hgq : Blade.grade (A.table.blade q) = j := hq ▸ hT.gradeOf_add hj hb
  have hgrade := Blade.grade_xor (A.table.blade p) (A.table.blade q)
  rw [hgp, hgq] at hgrade
  have hproduct : A.bladeProduct (A.table.blade p) (A.table.blade q) =
      (((Blade.vectors (A.table.blade p &&& A.table.blade q)).foldl
        (fun c v => c * A.metric.getD v 1)
        (Blade.reorderingSign (A.table.blade p) (A.table.blade q)).toScalar),
        A.table.blade p ^^^ A.table.blade q) := rfl
  by_cases hshared : A.table.blade p &&& A.table.blade q = 0
  · rw [hshared, Blade.grade_zero] at hgrade
    have hsum : Blade.grade (A.table.blade p ^^^ A.table.blade q) = i + j := by omega
    have hnone : Blade.vectors 0 = [] := by decide
    rw [hshared, hnone, List.foldl_nil] at hproduct
    simp [productTerm?, hp, hq, hproduct, hshared, hsum, Sign.toScalar_beq_zero,
      ProductKind.accepts, Sign.toScalar_mul_toScalar, GradeTable.signOf]
  · have hpos : Blade.grade (A.table.blade p &&& A.table.blade q) ≠ 0 :=
      fun h => hshared (Blade.grade_eq_zero.mp h)
    have hne : Blade.grade (A.table.blade p ^^^ A.table.blade q) ≠ i + j := by omega
    simp [productTerm?, hp, hq, hproduct, hshared, ProductKind.accepts, hne]

/-- What a term of an outer product looks like. -/
theorem outer_of_productTerm? [ExactSigns α] (hT : A.table.Lawful) {i j a b : Nat}
    (hi : i ≤ A.table.dimension) (hj : j ≤ A.table.dimension) (ha : a < A.table.groupSize i)
    (hb : b < A.table.groupSize j) {t : Nat × ProductTerm α}
    (h : A.productTerm? .outer i j a b = some t) :
    t.1 = i + j ∧ i + j ≤ A.table.dimension ∧ t.2.left = a ∧ t.2.right = b ∧
      ∃ s : Sign, t.2.coeff = s.toScalar := by
  rw [productTerm?_outer hT hi hj ha hb rfl rfl] at h
  split at h
  · rename_i hshared
    obtain rfl := Option.some.inj h
    refine ⟨rfl, ?_, rfl, rfl, _, rfl⟩
    have hgrade := Blade.grade_xor (A.table.blade (A.table.denseStart i + a))
      (A.table.blade (A.table.denseStart j + b))
    rw [hshared, Blade.grade_zero, show Blade.grade _ = i from hT.gradeOf_add hi ha,
      show Blade.grade _ = j from hT.gradeOf_add hj hb] at hgrade
    rw [← hgrade]
    exact Blade.grade_le (Nat.xor_lt_two_pow (hT.blade_lt _ (hT.denseStart_add_lt hi ha))
      (hT.blade_lt _ (hT.denseStart_add_lt hj hb)))
  · exact absurd h (by simp)

/-! ## One term of many -/

/-- A place of a range, and the places around it. -/
theorem range_split {k n : Nat} (hk : k < n) :
    ∃ before after, List.range n = before ++ k :: after ∧ ∀ a ∈ before ++ after, a < n ∧ a ≠ k := by
  obtain ⟨before, after, hrange⟩ := List.append_of_mem (List.mem_range.mpr hk)
  have hnodup := List.nodup_range (n := n)
  rw [hrange, List.nodup_middle, List.nodup_cons] at hnodup
  refine ⟨before, after, hrange, fun a ha => ⟨?_, fun hak => hnodup.1 (hak ▸ ha)⟩⟩
  rw [← List.mem_range, hrange]
  rcases List.mem_append.mp ha with ha | ha
  · exact List.mem_append_left _ ha
  · exact List.mem_append_right _ (List.mem_cons_of_mem _ ha)

/-- What a pair of places contributes to a list over all pairs, and what stands around it. -/
theorem flatMap_split {β : Type} (f : Nat → Nat → Option β) {m n a b : Nat} (ha : a < m)
    (hb : b < n) : ∃ before after,
      (List.range m).flatMap (fun k => (List.range n).filterMap (f k)) =
        before ++ ((f a b).toList ++ after) ∧
      ∀ t ∈ before ++ after, ∃ k < m, ∃ l < n, f k l = some t ∧ (k ≠ a ∨ l ≠ b) := by
  obtain ⟨before, after, hrow, hother⟩ := range_split ha
  obtain ⟨left, right, hcolumn, hplace⟩ := range_split hb
  have hsplit : (List.range n).filterMap (f a) =
      left.filterMap (f a) ++ ((f a b).toList ++ right.filterMap (f a)) := by
    rw [hcolumn, List.filterMap_append, List.filterMap_cons]
    cases f a b <;> rfl
  refine ⟨before.flatMap (fun k => (List.range n).filterMap (f k)) ++ left.filterMap (f a),
    right.filterMap (f a) ++ after.flatMap (fun k => (List.range n).filterMap (f k)), ?_, ?_⟩
  · rw [hrow, List.flatMap_append, List.flatMap_cons, hsplit]
    simp only [List.append_assoc]
  · intro t ht
    have hcases : (∃ k ∈ before ++ after, t ∈ (List.range n).filterMap (f k)) ∨
        ∃ l ∈ left ++ right, f a l = some t := by
      simp only [List.mem_append, List.mem_flatMap, List.mem_filterMap] at ht ⊢
      grind
    rcases hcases with ⟨k, hk, ht⟩ | ⟨l, hl, ht⟩
    · obtain ⟨l, hl, ht⟩ := List.mem_filterMap.mp ht
      exact ⟨k, (hother k hk).1, l, List.mem_range.mp hl, ht, .inl (hother k hk).2⟩
    · exact ⟨a, ha, l, (hplace l hl).1, ht, .inr (hplace l hl).2⟩

/-- Terms that all fall into one group are added one after the other. -/
theorem foldl_partialProducts {kind : ProductKind} {i j k : Nat} (hk : k ≤ A.table.dimension)
    (hterms : ∀ t ∈ A.productTerms kind i j, t.1 = k) (c d dense : Coordinates α) :
    (A.partialProducts kind i j).foldl (A.addPartialProduct c d) dense =
      (A.productTerms kind i j).foldl (A.addProductTerm c d) dense := by
  obtain ⟨above, hgroups, habove⟩ := GradeTable.groups_split hk
  simp only [partialProducts_eq, groupTerms]
  generalize A.productTerms kind i j = terms at hterms ⊢
  have hother : ∀ g, g ≠ k → (terms.filter fun t => t.1 == g) = [] := by
    intro g hg
    rw [List.filter_eq_nil_iff]
    intro t ht
    rw [hterms t ht, beq_iff_eq]
    exact Ne.symm hg
  have hall : (terms.filter fun t => t.1 == k) = terms := by
    rw [List.filter_eq_self]
    intro t ht
    rw [hterms t ht, beq_self_eq_true]
  have hnil : ∀ gs : List Nat, (∀ g ∈ gs, g ≠ k) → (gs.filterMap fun g =>
      partialProduct? i j g ((terms.filter fun t => t.1 == g).map (·.2))) = [] := by
    intro gs hgs
    rw [List.filterMap_eq_nil_iff]
    intro g hg
    rw [hother g (hgs g hg)]
    rfl
  have hone : A.table.groups.filterMap (fun g =>
      partialProduct? i j g ((terms.filter fun t => t.1 == g).map (·.2))) =
      (partialProduct? i j k (terms.map (·.2))).toList := by
    simp only [hgroups, List.filterMap_append]
    rw [hnil _ fun g hg => Nat.ne_of_lt (List.mem_range.mp hg), List.filterMap_cons, hall,
      hnil _ fun g hg => Nat.ne_of_gt (habove g hg)]
    cases partialProduct? i j k (terms.map (·.2)) <;> rfl
  rw [hone, foldl_partialProduct?, List.foldl_map]
  refine List.foldl_ext _ _ _ fun dense t ht => ?_
  rw [← hterms t ht]

/-- The outer product of two signed unit blades: one term, or none if they share a vector. -/
theorem denseProduct_unit [ExactSigns α] (hT : A.table.Lawful) {p q : Nat} {s t : Sign}
    (hp : p < 2 ^ A.table.dimension) (hq : q < 2 ^ A.table.dimension)
    (hx : A.Represents x (unitAt p s)) (hy : A.Represents y (unitAt q t)) :
    A.denseProduct .outer x y =
      if A.table.blade p &&& A.table.blade q = 0 then
        A.denseZeros.modify (A.table.index (A.table.blade p ^^^ A.table.blade q))
          (· + (Blade.reorderingSign (A.table.blade p) (A.table.blade q) * A.table.sign p *
            A.table.sign q * A.table.signOf (A.table.blade p ^^^ A.table.blade q) * s *
            t).toScalar)
      else A.denseZeros := by
  obtain ⟨i, hi, a, ha, hgp, hpa⟩ := hT.exists_place hp
  obtain ⟨j, hj, b, hb, hgq, hqb⟩ := hT.exists_place hq
  obtain ⟨c, hxs, hc⟩ := storedGroups_of_unit hT hx hp
  obtain ⟨d, hys, hd⟩ := storedGroups_of_unit hT hy hq
  rw [hgp] at hxs hc
  rw [hgq] at hys hd
  have hdense : A.denseProduct .outer x y =
      (A.partialProducts .outer i j).foldl (A.addPartialProduct c d) A.denseZeros := by
    rw [denseProduct_eq, hxs, hys]
    rfl
  have hfold : (A.partialProducts .outer i j).foldl (A.addPartialProduct c d) A.denseZeros =
      (A.productTerms .outer i j).foldl (A.addProductTerm c d) A.denseZeros := by
    have hterm : ∀ t ∈ A.productTerms .outer i j, t.1 = i + j ∧ i + j ≤ A.table.dimension := by
      intro t ht
      simp only [productTerms, List.mem_flatMap, List.mem_filterMap, List.mem_range] at ht
      obtain ⟨k, hk, l, hl, ht⟩ := ht
      obtain ⟨hgrade, hle, -⟩ := outer_of_productTerm? hT hi hj hk hl ht
      exact ⟨hgrade, hle⟩
    by_cases hsum : i + j ≤ A.table.dimension
    · exact foldl_partialProducts hsum (fun t ht => (hterm t ht).1) c d _
    · -- the sum of the grades is too large for the algebra, so there is no term at all
      exact foldl_partialProducts (Nat.zero_le _) (fun t ht => absurd (hterm t ht).2 hsum) c d _
  obtain ⟨before, after, hsplit, hother⟩ := flatMap_split (A.productTerm? .outer i j) ha hb
  have hnull : ∀ t ∈ before ++ after,
      (t.2.coeff * c.getD t.2.left 0 * d.getD t.2.right 0 == 0) = true := by
    intro t ht
    obtain ⟨k, hk, l, hl, hterm, hne⟩ := hother t ht
    obtain ⟨-, -, hleft, hright, u, hcoeff⟩ := outer_of_productTerm? hT hi hj hk hl hterm
    rw [hcoeff, hleft, hright, hc k hk, hd l hl, unitAt, unitAt, hpa, hqb]
    by_cases hka : k = a
    · have hlb : l ≠ b := hne.resolve_left (not_not_intro hka)
      rw [if_neg (by omega : ¬ A.table.denseStart j + l = A.table.denseStart j + b), hka,
        if_pos rfl, Sign.toScalar_mul_toScalar, Sign.toScalar_mul_beq_zero, zero_beq_zero]
    · have hzero : (u.toScalar * (0 : α) == 0) = true := by
        rw [Sign.toScalar_mul_beq_zero, zero_beq_zero]
      rw [if_neg (by omega : ¬ A.table.denseStart i + k = A.table.denseStart i + a)]
      split
      · rw [Sign.mul_toScalar_beq_zero, hzero]
      · exact mul_beq_zero hzero zero_beq_zero
  have hvalue : ∀ u : Sign,
      (u.toScalar * c.getD a 0 * d.getD b 0 : α) = (u * s * t).toScalar := by
    intro u
    rw [hc a ha, hd b hb, unitAt, unitAt, if_pos hpa.symm, if_pos hqb.symm,
      Sign.toScalar_mul_toScalar, Sign.toScalar_mul_toScalar]
  have hbefore : before.foldl (A.addProductTerm c d) A.denseZeros = A.denseZeros :=
    Coordinates.foldl_modify_zero (fun t ht => hnull t (List.mem_append_left _ ht))
      (Coordinates.plain_zeros _)
  rw [hdense, hfold, productTerms, hsplit, List.foldl_append, List.foldl_append, hbefore,
    productTerm?_outer hT hi hj ha hb hpa.symm hqb.symm]
  split
  · rename_i hshared
    have hgrade := Blade.grade_xor (A.table.blade p) (A.table.blade q)
    rw [hshared, Blade.grade_zero, show Blade.grade _ = i from hgp,
      show Blade.grade _ = j from hgq] at hgrade
    have hplace : A.table.denseStart (i + j) +
        (A.table.index (A.table.blade p ^^^ A.table.blade q) - A.table.denseStart (i + j)) =
          A.table.index (A.table.blade p ^^^ A.table.blade q) := by
      have hle := (hT.denseStart_le_index
        (Nat.xor_lt_two_pow (hT.blade_lt p hp) (hT.blade_lt q hq))).1
      rw [show Blade.grade _ = i + j from hgrade] at hle
      omega
    let u := Blade.reorderingSign (A.table.blade p) (A.table.blade q) * A.table.sign p *
      A.table.sign q * A.table.signOf (A.table.blade p ^^^ A.table.blade q)
    have hone : A.addProductTerm c d A.denseZeros (i + j,
        { left := a
          right := b
          out := A.table.index (A.table.blade p ^^^ A.table.blade q) - A.table.denseStart (i + j)
          coeff := u.toScalar }) =
        A.denseZeros.modify (A.table.index (A.table.blade p ^^^ A.table.blade q))
          (· + (u * s * t).toScalar) := by
      rw [addProductTerm, hplace, hvalue u]
    have hafter : after.foldl (A.addProductTerm c d) (A.denseZeros.modify
        (A.table.index (A.table.blade p ^^^ A.table.blade q)) (· + (u * s * t).toScalar)) =
        A.denseZeros.modify (A.table.index (A.table.blade p ^^^ A.table.blade q))
          (· + (u * s * t).toScalar) :=
      Coordinates.foldl_modify_zero (fun t ht => hnull t (List.mem_append_right _ ht))
        (Coordinates.plain_modify_zeros (Sign.toScalar_beq_zero _))
    rw [Option.toList_some, List.foldl_cons, List.foldl_nil, hone, hafter]
  · exact Coordinates.foldl_modify_zero (fun t ht => hnull t (List.mem_append_right _ ht))
      (Coordinates.plain_zeros _)

/-! ## Outer products -/

/-- A buffer of one value. -/
theorem represents_modify_zeros [ExactSigns α] (hT : A.table.Lawful) {p : Nat} (s : Sign) :
    A.Represents (A.compress (A.denseZeros.modify p (· + s.toScalar)) 0 A.table.fullSet)
      (unitAt p s) := by
  have hsize : (A.denseZeros.modify p (· + (s.toScalar : α))).size = A.table.denseSize := by
    rw [Array.size_modify, size_denseZeros]
  have hvalue : ∀ r < 2 ^ A.table.dimension,
      (A.denseZeros.modify p (· + (s.toScalar : α))).getD r 0 = unitAt p s r :=
    fun r hr => Coordinates.getD_modify_zeros (Sign.toScalar_beq_zero s) (hT.denseSize_eq ▸ hr)
  refine (represents_compress hT hsize fun r hr h => ?_).congr hvalue
  rw [hvalue r hr, unitAt] at h ⊢
  split at h
  · rw [Sign.toScalar_beq_zero] at h
    exact absurd h (by decide)
  · rename_i hrp
    rw [if_neg hrp]

/-- A buffer of zeros. -/
theorem represents_denseZeros [ExactSigns α] (hT : A.table.Lawful) :
    A.Represents (A.compress A.denseZeros 0 A.table.fullSet) fun _ => 0 :=
  (represents_compress hT size_denseZeros fun r _ _ => Coordinates.getD_zeros _ r).congr
    fun r _ => Coordinates.getD_zeros _ r

/-- The outer product of unit blades without a shared vector. -/
theorem represents_op_unit [ExactSigns α] (hT : A.table.Lawful) {p q : Nat} {s t : Sign}
    (hp : p < 2 ^ A.table.dimension) (hq : q < 2 ^ A.table.dimension)
    (hx : A.Represents x (unitAt p s)) (hy : A.Represents y (unitAt q t))
    (h : A.table.blade p &&& A.table.blade q = 0) :
    A.Represents (A.op x y) (unitAt (A.table.index (A.table.blade p ^^^ A.table.blade q))
      (Blade.reorderingSign (A.table.blade p) (A.table.blade q) * A.table.sign p *
        A.table.sign q * A.table.signOf (A.table.blade p ^^^ A.table.blade q) * s * t)) := by
  rw [op, product, denseProduct_unit hT hp hq hx hy, if_pos h]
  exact represents_modify_zeros hT _

/-- The outer product of unit blades with a shared vector is zero. -/
theorem represents_op_unit_of_shared [ExactSigns α] (hT : A.table.Lawful) {p q : Nat} {s t : Sign}
    (hp : p < 2 ^ A.table.dimension) (hq : q < 2 ^ A.table.dimension)
    (hx : A.Represents x (unitAt p s)) (hy : A.Represents y (unitAt q t))
    (h : A.table.blade p &&& A.table.blade q ≠ 0) : A.Represents (A.op x y) fun _ => 0 := by
  rw [op, product, denseProduct_unit hT hp hq hx hy, if_neg h]
  exact represents_denseZeros hT

/-- The outer product of zero is zero. -/
theorem represents_op_zero [ExactSigns α] (hT : A.table.Lawful)
    (hx : A.Represents x fun _ => 0) : A.Represents (A.op x y) fun _ => 0 := by
  have hnone : A.storedGroups x = [] := by
    rw [storedGroups_eq, List.map_eq_nil_iff, List.filter_eq_nil_iff]
    intro g _ hg
    obtain ⟨r, _, _, hne⟩ := (hx.has_iff g).mp hg
    rw [zero_beq_zero] at hne
    exact absurd hne (by decide)
  rw [op, product, denseProduct_eq, hnone]
  exact represents_denseZeros hT

end Clifford

end GeometricAlgebra
