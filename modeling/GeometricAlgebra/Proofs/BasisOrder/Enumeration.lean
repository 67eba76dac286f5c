/-
  GeometricAlgebra.Proofs.BasisOrder.Enumeration

  The standard order as a walk from each blade to the next.  A list of vectors ends in vectors that
  stand as high as they can; the last one that does not is raised, and those behind it follow.  The
  walk over the lists that begin with `us` is the walk over those that continue with the lowest
  vector, then over the others, as the recursion of `choose` has it.

    * `raisable?_eq`, `foldlM_follow?`: the scan from the right and the vectors that follow.
    * `successor?_raise`, `successor?_last`: one step of the walk, and its end.
    * `walk_choose`: the walk over the lists with a common beginning.
    * `Walk.eq`: from a list there is one walk at most.
    * `Enumerates`: every ascending list once, by grade and in lexicographic order.
    * `enumeration_standard`: the walk ends within bounds, and it and the standard order list the
      same blades, which is all of them.
-/

import GeometricAlgebra.BasisOrder.Successor
import GeometricAlgebra.Proofs.BasisOrder
import GeometricAlgebra.Proofs.Blade.Binomial

namespace GeometricAlgebra.BasisOrder

variable {n g k l v : Nat} {us vs : List Nat}

/-! ## One step -/

theorem difference?_of_le {a b : Nat} (h : b ≤ a) : difference? a b = some (a - b) := if_pos h

/-- One place of the scan. -/
theorem raisable?_succ (hg : g ≤ n) {i : Nat} (hv : vs[i]? = some v) :
    raisable? n g vs (i + 1) = if v = n - g + i then raisable? n g vs i else some (i + 1) := by
  rw [raisable?, hv, difference?_of_le hg]
  have hhighest : difference? (n - g + (i + 1)) 1 = some (n - g + i) :=
    difference?_of_le (Nat.le_add_left 1 _)
  simp [hhighest]

/-- The scan passes the vectors that stand as high as they can. -/
theorem raisable?_append (us : List Nat) (hg : g ≤ n) (h : us.length + k = g) :
    raisable? n g (us ++ List.range' (n - k) k) g =
      raisable? n g (us ++ List.range' (n - k) k) us.length := by
  -- from the end of the first `j` of these vectors
  have hpass : ∀ j ≤ k, raisable? n g (us ++ List.range' (n - k) k) (us.length + j) =
      raisable? n g (us ++ List.range' (n - k) k) us.length := by
    intro j hj
    induction j with
    | zero => rfl
    | succ j ih =>
      have hv : (us ++ List.range' (n - k) k)[us.length + j]? = some (n - k + j) := by
        rw [List.getElem?_append_right (Nat.le_add_right ..), Nat.add_sub_cancel_left,
          List.getElem?_range' hj, Nat.one_mul]
      rw [← Nat.add_assoc, raisable?_succ hg hv, if_pos (by omega), ih (by omega)]
  rw [← hpass k le_rfl, h]

/-- The vectors behind a raised one follow it. -/
theorem foldlM_follow? (us : List Nat) (v : Nat) (ws : List Nat) :
    (List.range' (us.length + 1) ws.length).foldlM follow? (us ++ v :: ws) =
      some (us ++ List.range' v (ws.length + 1)) := by
  induction ws generalizing us v with
  | nil => rfl
  | cons w ws ih =>
    have hstep : follow? (us ++ v :: w :: ws) (us.length + 1) =
        some ((us ++ [v]) ++ (v + 1) :: ws) := by
      simp [follow?, difference?_of_le]
    have hrest := ih (us ++ [v]) (v + 1)
    rw [List.length_append, List.length_singleton] at hrest
    rw [List.length_cons, List.range'_succ, List.foldlM_cons, hstep, Option.bind_eq_bind,
      Option.bind_some, hrest, List.append_assoc]
    rfl

/-- The last vector that can be raised is raised, and those behind it follow. -/
theorem successor?_raise (hg : g ≤ n) (h : us.length + (k + 1) = g) (hv : v + k + 1 < n) :
    successor? n g (us ++ v :: List.range' (n - k) k) =
      some (some (us ++ List.range' (v + 1) (k + 1))) := by
  have hlength : us.length + 1 + k = g := by omega
  have hscan : raisable? n g (us ++ v :: List.range' (n - k) k) g = some (us.length + 1) := by
    have hpass := raisable?_append (us ++ [v]) hg (by simpa using hlength)
    rw [List.append_assoc, List.singleton_append, List.length_append, List.length_singleton] at hpass
    have hget : (us ++ v :: List.range' (n - k) k)[us.length]? = some v := by simp
    rw [hpass, raisable?_succ hg hget, if_neg (by omega)]
  have hfollow := foldlM_follow? us (v + 1) (List.range' (n - k) k)
  rw [List.length_range'] at hfollow
  rw [successor?, hscan]
  simp [← hlength, hfollow]

example : successor? 5 3 [0, 3, 4] = some (some [1, 2, 3]) := by decide

/-- The highest vectors are the last list. -/
theorem successor?_last (hg : g ≤ n) : successor? n g (List.range' (n - g) g) = some none := by
  have hscan := raisable?_append [] hg (Nat.zero_add g)
  rw [List.nil_append] at hscan
  rw [successor?, hscan]
  rfl

/-! ## The walk -/

/-- The walk over the lists that begin with `us` and go on with vectors among the last `l`; behind
    the last of these lists it goes on with `rest`. -/
theorem walk_choose {us : List Nat} {rest : BasisOrder} (hg : g ≤ n) (h : us.length + k = g)
    (hk : k ≤ l) (hl : l ≤ n) (hlast : Walk n g (us ++ List.range' (n - k) k)
      ((us ++ List.range' (n - k) k) :: rest)) :
    Walk n g (us ++ List.range' (n - l) k)
      ((choose k (List.range' (n - l) l)).map (us ++ ·) ++ rest) := by
  induction l generalizing k us rest with
  | zero =>
    obtain rfl := Nat.le_zero.mp hk
    exact hlast
  | succ l ih =>
    cases k with
    | zero => exact hlast
    | succ k =>
      have hlow : n - (l + 1) + 1 = n - l := by omega
      rw [List.range'_succ, List.range'_succ, hlow, choose, List.map_append, List.map_map,
        List.append_assoc]
      -- first the lists with the lowest vector, then those without it
      have hfirst := @ih k (us ++ [n - (l + 1)])
        ((choose (k + 1) (List.range' (n - l) l)).map (us ++ ·) ++ rest)
        (by simpa using (by omega : us.length + 1 + k = g)) (by omega) (by omega)
      simp only [List.append_assoc, List.singleton_append] at hfirst
      refine hfirst ?_
      rcases Nat.lt_or_ge k l with hlt | hge
      · refine .next (successor?_raise hg h (by omega)) ?_
        rw [hlow]
        exact ih h (by omega) (by omega) hlast
      · -- no list is without the lowest vector
        obtain rfl : k = l := by omega
        have hnone : choose (k + 1) (List.range' (n - k) k) = [] := by
          rw [← List.length_eq_zero_iff, length_choose, List.length_range', Nat.choose_succ_self]
        rw [hnone, List.map_nil, List.nil_append]
        rwa [List.range'_succ, hlow] at hlast

/-- The walk over one grade lists the blades of the grade. -/
theorem walk_range (hg : g ≤ n) : Walk n g (List.range g) (choose g (List.range n)) := by
  have hwalk := @walk_choose n g g n [] [] hg (Nat.zero_add g) hg le_rfl
    (.last (successor?_last hg))
  rw [Nat.sub_self, List.nil_append, ← List.range_eq_range', ← List.range_eq_range',
    List.append_nil] at hwalk
  simpa using hwalk

theorem walks_of_le {gs : List Nat} (h : ∀ g ∈ gs, g ≤ n) :
    Walks n gs (gs.flatMap fun g => choose g (List.range n)) := by
  induction gs with
  | nil => exact .nil
  | cons g gs ih =>
    obtain ⟨hg, hgs⟩ := List.forall_mem_cons.mp h
    rw [List.flatMap_cons]
    exact .cons (walk_range hg) (ih hgs)

theorem enumeration_of_eq (n : Nat) : Enumeration n (standard n) :=
  walks_of_le fun _ hg => Nat.le_of_lt_succ (List.mem_range.mp hg)

/-- From a list there is one walk at most. -/
theorem Walk.eq {order order' : BasisOrder} (h : Walk n g vs order) (h' : Walk n g vs order') :
    order = order' := by
  induction h generalizing order' with
  | last hlast =>
    cases h' with
    | last _ => rfl
    | next hnext _ => exact absurd (hlast.symm.trans hnext) (by simp)
  | next hnext _ ih =>
    cases h' with
    | last hlast => exact absurd (hlast.symm.trans hnext) (by simp)
    | next hnext' hrest =>
      obtain rfl := Option.some.inj (Option.some.inj (hnext.symm.trans hnext'))
      rw [ih hrest]

theorem Walks.eq {gs : List Nat} {order order' : BasisOrder} (h : Walks n gs order)
    (h' : Walks n gs order') : order = order' := by
  induction h generalizing order' with
  | nil =>
    cases h'
    rfl
  | cons hwalk _ ih =>
    cases h' with
    | cons hwalk' hrest => rw [hwalk.eq hwalk', ih hrest]

/-! ## The order of the walk -/

/-- Every ascending list of vectors below `n` once: shorter lists first, and lists of one length in
    lexicographic order. -/
structure Enumerates (n : Nat) (order : BasisOrder) : Prop where
  mem_iff : ∀ vs, vs ∈ order ↔ vs.Pairwise (· < ·) ∧ ∀ v ∈ vs, v < n
  ascending : order.Pairwise fun us vs => us.length < vs.length ∨ us.length = vs.length ∧ us < vs
  -- Each grade has as many lists as the dimension has blades of it.
  count_grade : ∀ g, order.countP (·.length = g) = Blade.binomial n g
  length_eq : order.length = 2 ^ n

/-- The sublists of an ascending list ascend. -/
theorem pairwise_choose (k : Nat) {xs : List Nat} (h : xs.Pairwise (· < ·)) :
    (choose k xs).Pairwise (· < ·) := by
  induction xs generalizing k with
  | nil => cases k <;> simp [choose]
  | cons x xs ih =>
    cases k with
    | zero => simp [choose]
    | succ k =>
      rw [List.pairwise_cons] at h
      rw [choose, List.pairwise_append, List.pairwise_map]
      refine ⟨(ih k h.2).imp fun hlt => List.cons_lt_cons_self.mpr hlt, ih (k + 1) h.2, ?_⟩
      -- what keeps `x` is before what begins with a later entry
      intro us hus vs hvs
      obtain ⟨us, -, rfl⟩ := List.mem_map.mp hus
      obtain ⟨hsub, hlength⟩ := mem_choose.mp hvs
      cases vs with
      | nil => simp at hlength
      | cons v vs => exact List.cons_lt_cons_iff.mpr (.inl (h.1 v (hsub.mem List.mem_cons_self)))

theorem enumerates_standard (n : Nat) : Enumerates n (standard n) where
  mem_iff vs := by
    rw [mem_standard]
    constructor
    · exact fun h => ⟨List.pairwise_lt_range.sublist h, fun v hv => List.mem_range.mp (h.mem hv)⟩
    · rintro ⟨hlt, hmem⟩
      exact List.sublist_of_subperm_of_pairwise (List.subperm_of_subset (hlt.imp Nat.ne_of_lt)
        fun v hv => List.mem_range.mpr (hmem v hv)) hlt List.pairwise_lt_range
  ascending := by
    rw [standard, List.pairwise_flatMap]
    refine ⟨fun g _ => ?_, List.pairwise_lt_range.imp fun {g g'} hlt us hus vs hvs => .inl ?_⟩
    · refine (pairwise_choose g List.pairwise_lt_range).imp_of_mem fun {us vs} hus hvs hlt =>
        .inr ⟨?_, hlt⟩
      rw [(mem_choose.mp hus).2, (mem_choose.mp hvs).2]
    · rwa [(mem_choose.mp hus).2, (mem_choose.mp hvs).2]
  count_grade g := by
    rw [Blade.binomial_eq_choose, ← (complete_standard n).count_length g, List.count_eq_countP,
      List.countP_map]
    rfl
  length_eq := length_standard n

/-- In every dimension, the walk from each list to the next, whose every access and difference is
    checked, ends without a fault, and lists what the standard order lists: every ascending list of
    vectors once, by grade and in lexicographic order. -/
theorem enumeration_standard (n : Nat) :
    (∀ order, Enumeration n order ↔ order = standard n) ∧ Enumerates n (standard n) := by
  refine ⟨fun order => ⟨fun h => h.eq (enumeration_of_eq n), ?_⟩, enumerates_standard n⟩
  rintro rfl
  exact enumeration_of_eq n

end GeometricAlgebra.BasisOrder
