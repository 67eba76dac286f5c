/-
  GeometricAlgebra.Proofs.Blade.Vectors

  A blade is the set of its basis vectors.  `Blade.vectors` lists that set in
  ascending order, `Blade.grade` counts it, and `Blade.ofVectors` makes the blade
  of a list.

    * `grade_eq`: the bit count, one bit at a time, at every blade.
    * `perm_vectors_ofVectors`: a list without repetitions is a rearrangement of
      the vectors of its blade.
    * `card_filter_grade`: dimension `n` has `n.choose g` blades of grade `g`.
-/

import GeometricAlgebra.Blade
import Mathlib.Data.Finset.Powerset

namespace GeometricAlgebra.Blade

/-! ## Members of a blade -/

theorem mem_vectors {b : Blade} {v : Nat} : v ∈ vectors b ↔ b.testBit v = true := by
  simp only [vectors, List.mem_filter, List.mem_range, and_iff_right_iff_imp]
  intro h
  -- the listing stops behind the logarithm, where no bit is set any more
  by_contra hv
  have hb : b < 2 ^ v := lt_of_lt_of_le Nat.lt_log2_self
    (Nat.pow_le_pow_right (by decide) (Nat.not_lt.mp hv))
  simp [Nat.testBit_lt_two_pow hb] at h

theorem pairwise_vectors (b : Blade) : (vectors b).Pairwise (· < ·) :=
  List.pairwise_lt_range.filter _

theorem nodup_vectors (b : Blade) : (vectors b).Nodup :=
  (pairwise_vectors b).imp Nat.ne_of_lt

theorem lt_of_testBit {n v : Nat} {b : Blade} (hb : b < 2 ^ n) (h : b.testBit v = true) : v < n := by
  by_contra hv
  have : b < 2 ^ v := lt_of_lt_of_le hb (Nat.pow_le_pow_right (by decide) (Nat.not_lt.mp hv))
  simp [Nat.testBit_lt_two_pow this] at h

/-- In dimension `n` the vectors of a blade are those below `n` that it contains. -/
theorem vectors_eq_filter {n : Nat} {b : Blade} (hb : b < 2 ^ n) :
    vectors b = (List.range n).filter b.testBit := by
  have hp : ((List.range n).filter b.testBit).Pairwise (· < ·) := List.pairwise_lt_range.filter _
  -- both lists ascend, so they are equal as soon as they have the same members
  refine List.Perm.eq_of_pairwise (fun u v _ _ h h' => absurd h (Nat.lt_asymm h'))
    (pairwise_vectors b) hp ?_
  rw [List.perm_ext_iff_of_nodup (nodup_vectors b) (hp.imp Nat.ne_of_lt)]
  intro v
  simp only [mem_vectors, List.mem_filter, List.mem_range]
  exact ⟨fun h => ⟨lt_of_testBit hb h, h⟩, fun h => h.2⟩

/-! ## Grades -/

@[simp] theorem grade_zero : grade 0 = 0 := by
  rw [grade]

/-- The lowest bit and the grade of the others. -/
theorem grade_eq (b : Blade) : grade b = b % 2 + grade (b / 2) := by
  cases b with
  | zero => simp
  | succ b => rw [grade]

theorem grade_eq_countP {n b : Nat} (hb : b < 2 ^ n) :
    grade b = (List.range n).countP b.testBit := by
  induction n generalizing b with
  | zero =>
    have : b = 0 := by simpa using hb
    simp [this]
  | succ n ih =>
    have hhalf : b / 2 < 2 ^ n := by
      rw [Nat.pow_succ] at hb
      omega
    -- the bits of the half are those of `b`, one place down
    have hcomp : b.testBit ∘ Nat.succ = (b / 2).testBit := by
      funext i
      exact (Nat.testBit_div_two b i).symm
    rw [grade_eq, ih hhalf, List.range_succ_eq_map, List.countP_cons, List.countP_map, hcomp,
      Nat.testBit_zero, Nat.add_comm]
    congr 1
    rcases Nat.mod_two_eq_zero_or_one b with h | h <;> simp [h]

@[simp] theorem length_vectors (b : Blade) : (vectors b).length = grade b := by
  rw [grade_eq_countP Nat.lt_log2_self, List.countP_eq_length_filter]
  rfl

theorem grade_le {n : Nat} {b : Blade} (hb : b < 2 ^ n) : grade b ≤ n := by
  rw [grade_eq_countP hb]
  simpa using List.countP_le_length (p := b.testBit) (l := List.range n)

theorem grade_eq_zero {b : Blade} : grade b = 0 ↔ b = 0 := by
  constructor
  · intro h
    have hnil : vectors b = [] := List.eq_nil_of_length_eq_zero (by rw [length_vectors, h])
    apply Nat.eq_of_testBit_eq
    intro v
    have : ¬ b.testBit v = true := by
      rw [← mem_vectors, hnil]
      exact List.not_mem_nil
    simpa using this
  · rintro rfl
    exact grade_zero

/-- A shared vector is counted on both sides of a product and cancels in it. -/
theorem grade_xor (a b : Nat) : grade (a ^^^ b) + 2 * grade (a &&& b) = grade a + grade b := by
  induction a using Nat.strong_induction_on generalizing b with
  | _ a ih =>
    rcases Nat.eq_zero_or_pos a with rfl | ha
    · simp
    · -- the lowest bits add up among themselves, and so do the halves
      have hhalf := ih (a / 2) (Nat.div_lt_self ha (by decide)) (b / 2)
      have hxor := Nat.xor_mod_two_eq_one (a := a) (b := b)
      have hand := Nat.and_mod_two_eq_one (a := a) (b := b)
      rw [grade_eq (a ^^^ b), grade_eq (a &&& b), grade_eq a, grade_eq b, Nat.xor_div_two,
        Nat.and_div_two]
      omega

theorem grade_and_le (a b : Nat) : grade (a &&& b) ≤ grade a := by
  have h := grade_xor (a &&& b) a
  rw [Nat.and_comm (a &&& b) a, ← Nat.and_assoc, Nat.and_self] at h
  omega

/-- The grade above a place: the vectors from `k` on. -/
theorem grade_shiftRight (b : Blade) (k : Nat) :
    grade (b >>> k) = (vectors b).countP (k ≤ ·) := by
  -- moved up by `k` again, the vectors of the shifted blade are those of `b` from `k` on
  have hshift : ((vectors (b >>> k)).map (· + k)).Perm ((vectors b).filter (k ≤ ·)) := by
    rw [List.perm_ext_iff_of_nodup ((nodup_vectors _).map fun u v h => Nat.add_right_cancel h)
      ((nodup_vectors b).filter _)]
    intro v
    simp only [List.mem_map, mem_vectors, Nat.testBit_shiftRight, List.mem_filter, decide_eq_true_eq]
    constructor
    · rintro ⟨u, hu, rfl⟩
      exact ⟨by rwa [Nat.add_comm], Nat.le_add_left k u⟩
    · rintro ⟨hv, hk⟩
      exact ⟨v - k, by rwa [Nat.add_sub_cancel' hk], Nat.sub_add_cancel hk⟩
  rw [← length_vectors, List.countP_eq_length_filter, ← hshift.length_eq, List.length_map]

/-! ## The blade of a list of vectors -/

@[simp] theorem ofVectors_nil : ofVectors [] = 0 := rfl

@[simp] theorem ofVectors_cons (v : Nat) (vs : List Nat) :
    ofVectors (v :: vs) = ofVector v ||| ofVectors vs := rfl

theorem testBit_ofVector (v i : Nat) : (ofVector v).testBit i = decide (i = v) := by
  rw [ofVector, Nat.one_shiftLeft, Nat.testBit_two_pow]
  exact decide_eq_decide.mpr eq_comm

theorem testBit_ofVectors {vs : List Nat} {i : Nat} : (ofVectors vs).testBit i = true ↔ i ∈ vs := by
  induction vs with
  | nil => simp
  | cons v vs ih => simp [testBit_ofVector, ih]

theorem ofVectors_lt {n : Nat} {vs : List Nat} (h : ∀ v ∈ vs, v < n) : ofVectors vs < 2 ^ n := by
  apply Nat.lt_pow_two_of_testBit
  intro i hi
  rw [← Bool.not_eq_true, testBit_ofVectors]
  intro hmem
  exact absurd (h i hmem) (Nat.not_lt.mpr hi)

@[simp] theorem ofVectors_singleton (v : Nat) : ofVectors [v] = ofVector v := Nat.or_zero _

theorem ofVector_lt {n v : Nat} (h : v < n) : ofVector v < 2 ^ n := by
  rw [← ofVectors_singleton]
  exact ofVectors_lt (List.forall_mem_singleton.mpr h)

theorem ofVectors_append_singleton (vs : List Nat) (v : Nat) :
    ofVectors (vs ++ [v]) = ofVectors vs ||| ofVector v := by
  apply Nat.eq_of_testBit_eq
  intro i
  rw [Bool.eq_iff_iff]
  simp [testBit_ofVectors, testBit_ofVector]

/-- The vectors of the blade of a list are the list, rearranged. -/
theorem perm_vectors_ofVectors {vs : List Nat} (h : vs.Nodup) : (vectors (ofVectors vs)).Perm vs := by
  rw [List.perm_ext_iff_of_nodup (nodup_vectors _) h]
  intro v
  rw [mem_vectors, testBit_ofVectors]

theorem grade_ofVectors {vs : List Nat} (h : vs.Nodup) : grade (ofVectors vs) = vs.length := by
  rw [← length_vectors, (perm_vectors_ofVectors h).length_eq]

theorem grade_ofVector (v : Nat) : grade (ofVector v) = 1 := by
  rw [← ofVectors_singleton, grade_ofVectors (List.nodup_singleton v), List.length_singleton]

theorem vectors_ofVector (v : Nat) : vectors (ofVector v) = [v] := by
  have hperm := perm_vectors_ofVectors (List.nodup_singleton v)
  rw [ofVectors_singleton] at hperm
  exact List.perm_singleton.mp hperm

theorem lt_of_ofVector_lt {n v : Nat} (h : ofVector v < 2 ^ n) : v < n :=
  lt_of_testBit h (by rw [testBit_ofVector, decide_eq_true rfl])

theorem ofVector_inj {u v : Nat} (h : ofVector u = ofVector v) : u = v := by
  have hbit := testBit_ofVector v u
  rw [← h, testBit_ofVector, decide_eq_true rfl] at hbit
  exact of_decide_eq_true hbit.symm

/-- A blade of grade one is a basis vector. -/
theorem eq_ofVector_of_grade {b : Blade} (h : grade b = 1) : ∃ v, b = ofVector v := by
  obtain ⟨v, hv⟩ := List.length_eq_one_iff.mp ((length_vectors b).trans h)
  refine ⟨v, Nat.eq_of_testBit_eq fun i => ?_⟩
  rw [Bool.eq_iff_iff, ← mem_vectors, hv, testBit_ofVector, List.mem_singleton,
    decide_eq_true_eq]

/-! ## How many blades there are -/

/-- Dimension `n` has one blade of grade `g` for every set of `g` vectors. -/
theorem card_filter_grade (n g : Nat) :
    ((Finset.range (2 ^ n)).filter (grade · = g)).card = n.choose g := by
  rw [← Finset.card_range n, ← Finset.card_powersetCard g (Finset.range n), Finset.card_range]
  refine Finset.card_bij (fun b _ => (vectors b).toFinset) ?_ ?_ ?_
  · -- a blade of grade `g` is a set of `g` vectors below `n`
    intro b hb
    rw [Finset.mem_filter, Finset.mem_range] at hb
    rw [Finset.mem_powersetCard, List.toFinset_card_of_nodup (nodup_vectors b), length_vectors]
    refine ⟨fun v hv => ?_, hb.2⟩
    rw [List.mem_toFinset, mem_vectors] at hv
    exact Finset.mem_range.mpr (lt_of_testBit hb.1 hv)
  · -- blades with the same vectors have the same bits
    intro a _ b _ hab
    apply Nat.eq_of_testBit_eq
    intro i
    have := Finset.ext_iff.mp hab i
    rwa [List.mem_toFinset, List.mem_toFinset, mem_vectors, mem_vectors, ← Bool.eq_iff_iff] at this
  · -- a set of vectors is that of the blade made from it
    intro s hs
    rw [Finset.mem_powersetCard] at hs
    have hmem : ∀ v, v ∈ s.toList ↔ v ∈ s := fun v => Finset.mem_toList
    refine ⟨ofVectors s.toList, ?_, ?_⟩
    · rw [Finset.mem_filter, Finset.mem_range, grade_ofVectors (Finset.nodup_toList s),
        Finset.length_toList]
      exact ⟨ofVectors_lt fun v hv => Finset.mem_range.mp (hs.1 ((hmem v).mp hv)), hs.2⟩
    · ext v
      rw [List.mem_toFinset, mem_vectors, testBit_ofVectors, hmem]

end GeometricAlgebra.Blade
