/-
  GeometricAlgebra.Proofs.Blade.Rewriting

  The product of two blades as rewriting of words.  A word of basis vectors is rewritten by swapping
  neighbours that are out of order, with a factor minus one, and by striking out two equal
  neighbours, with the square of the vector as a factor.

    * `Rewrites`, `Reduces`, `Irreducible`: one step, steps in a row with the product of their
      factors, and where no step is left.
    * `wordBlade`, `wordFactor`: the product of the vectors of a word, kept by every step.
    * `inversions_le_of_sublist`, `Rewrites.measure_lt`: every step makes a word smaller.
    * `normalizes_geometricProduct`: in whatever order the steps are taken, the vectors of two blades
      end as the vectors of their product, with its coefficient.
-/

import Mathlib.Algebra.Order.Ring.Rat
import GeometricAlgebra.Proofs.BasisOrder
import GeometricAlgebra.Proofs.Blade.Exterior
import GeometricAlgebra.Proofs.Blade.Involution

namespace GeometricAlgebra.Blade

/-! ## Words of basis vectors -/

/-- Every vector that occurs twice in a word has a square. -/
def HasSquares {α : Type} (metric : Array α) (us : List Nat) : Prop :=
  ∀ v, 2 ≤ us.count v → v < metric.size

/-- The vectors of two blades, one after the other, have squares if those that they share have. -/
theorem hasSquares_vectors_append {α : Type} {metric : Array α} {a b : Blade}
    (h : ∀ v, a.testBit v = true → b.testBit v = true → v < metric.size) :
    HasSquares metric (vectors a ++ vectors b) := by
  intro v hv
  have hleft := List.nodup_iff_count_le_one.mp (nodup_vectors a) v
  have hright := List.nodup_iff_count_le_one.mp (nodup_vectors b) v
  rw [List.count_append] at hv
  -- neither blade repeats a vector, so both have it
  have ha : v ∈ vectors a := List.count_pos_iff.mp (by omega)
  have hb : v ∈ vectors b := List.count_pos_iff.mp (by omega)
  exact h v (mem_vectors.mp ha) (mem_vectors.mp hb)

/-- The blade of the vectors that occur an odd number of times in a word. -/
def wordBlade : List Nat → Blade
  | [] => 0
  | v :: vs => ofVector v ^^^ wordBlade vs

theorem wordBlade_append (us ws : List Nat) :
    wordBlade (us ++ ws) = wordBlade us ^^^ wordBlade ws := by
  induction us with
  | nil => exact (Nat.zero_xor _).symm
  | cons u us ih => rw [List.cons_append, wordBlade, ih, wordBlade, Nat.xor_assoc]

theorem testBit_ofVectors_of_lt {v : Nat} {us : List Nat} (h : ∀ u ∈ us, v < u) :
    (ofVectors us).testBit v = false := by
  rw [← Bool.not_eq_true, testBit_ofVectors]
  exact fun hmem => Nat.lt_irrefl v (h v hmem)

theorem wordBlade_of_pairwise {us : List Nat} (h : us.Pairwise (· < ·)) :
    wordBlade us = ofVectors us := by
  induction us with
  | nil => rfl
  | cons u us ih =>
    rw [List.pairwise_cons] at h
    rw [wordBlade, ih h.2, Nat.xor_comm, xor_ofVector (testBit_ofVectors_of_lt h.1), Nat.or_comm,
      ofVectors_cons]

theorem wordBlade_vectors (a : Blade) : wordBlade (vectors a) = a := by
  rw [wordBlade_of_pairwise (pairwise_vectors a), ofVectors_vectors]

/-! ## Rewriting -/

section Rewriting

variable {K : Type} [Field K]

/-- One step of rewriting a word of basis vectors, with its factor. -/
inductive Rewrites (metric : Array K) : List Nat → K → List Nat → Prop
  -- Two neighbours that are out of order change places.
  | swap (us ws : List Nat) {v w : Nat} (h : w < v) :
      Rewrites metric (us ++ v :: w :: ws) (-1) (us ++ w :: v :: ws)
  -- Two equal neighbours leave the square of the vector.
  | cancel (us ws : List Nat) {v : Nat} {s : K} (h : metric[v]? = some s) :
      Rewrites metric (us ++ v :: v :: ws) s (us ++ ws)

/-- Steps in a row, with the product of their factors. -/
inductive Reduces (metric : Array K) : List Nat → K → List Nat → Prop
  | refl (us : List Nat) : Reduces metric us 1 us
  | step {us vs ws : List Nat} {s t : K} (h : Reduces metric us s vs) (h' : Rewrites metric vs t ws) :
      Reduces metric us (s * t) ws

/-- No step applies to the word. -/
def Irreducible (metric : Array K) (us : List Nat) : Prop := ∀ s ws, ¬ Rewrites metric us s ws

/-- Rewriting the word `us` ends, in whatever order the steps are taken, in the word `ws` with the
    factor `c`. -/
structure Normalizes (metric : Array K) (us : List Nat) (c : K) (ws : List Nat) : Prop where
  -- No sequence of steps goes on for ever.
  terminates : Acc (fun vs' vs => ∃ s, Rewrites metric vs s vs') us
  irreducible : Irreducible metric ws
  -- Every sequence of steps can be continued up to `ws`.
  continues : ∀ s vs, Reduces metric us s vs → ∃ t, Reduces metric vs t ws ∧ s * t = c
  -- Where no step is left, the word is `ws` and the factor `c`.
  eq_of_irreducible : ∀ s vs, Reduces metric us s vs → Irreducible metric vs → vs = ws ∧ s = c

variable {metric : Array K} {us vs ws : List Nat} {s t : K}

theorem Reduces.trans (h : Reduces metric us s vs) (h' : Reduces metric vs t ws) :
    Reduces metric us (s * t) ws := by
  induction h' with
  | refl => rwa [mul_one]
  | step _ hstep ih =>
    rw [← mul_assoc]
    exact ih.step hstep

/-! ## Termination -/

/-- Leaving out vectors leaves no more pairs in the wrong order. -/
theorem inversions_le_of_sublist (h : us.Sublist ws) : inversions us ≤ inversions ws := by
  induction h with
  | slnil => exact Nat.le_refl _
  | cons v _ ih => exact ih.trans (Nat.le_add_left _ _)
  | cons_cons v hsub ih => exact Nat.add_le_add (hsub.countP_le) ih

/-- A swap of neighbours that are out of order puts one pair right. -/
theorem inversions_swap (us ws : List Nat) {v w : Nat} (h : w < v) :
    inversions (us ++ v :: w :: ws) = inversions (us ++ w :: v :: ws) + 1 := by
  induction us with
  | nil =>
    have hnot : ¬ v < w := Nat.not_lt.mpr h.le
    simp only [List.nil_append, inversions, List.countP_cons, decide_eq_true h,
      decide_eq_false hnot, if_true, Bool.false_eq_true, if_false]
    omega
  | cons u us ih =>
    -- an earlier vector has the same vectors behind it
    have hperm : (us ++ v :: w :: ws).Perm (us ++ w :: v :: ws) :=
      (List.Perm.swap w v ws).append_left us
    rw [List.cons_append, List.cons_append, inversions, inversions, ih, hperm.countP_eq]
    omega

/-- Every step makes the length and the inversions of a word smaller, taken together. -/
theorem Rewrites.measure_lt (h : Rewrites metric us s ws) :
    ws.length + inversions ws < us.length + inversions us := by
  cases h with
  | swap us ws hlt =>
    rw [inversions_swap us ws hlt]
    simp only [List.length_append, List.length_cons]
    omega
  | @cancel us ws v s _ =>
    have hsub : (us ++ ws).Sublist (us ++ v :: v :: ws) :=
      (((List.Sublist.refl ws).cons v).cons v).append_left us
    have hle := inversions_le_of_sublist hsub
    simp only [List.length_append, List.length_cons]
    omega

theorem acc_rewrites (metric : Array K) (us : List Nat) :
    Acc (fun vs' vs => ∃ s, Rewrites metric vs s vs') us := by
  have hwf := (measure fun vs : List Nat => vs.length + inversions vs).wf
  exact Subrelation.accessible (fun ⟨_, h⟩ => h.measure_lt) (hwf.apply us)

/-- Some sequence of steps leads to a word without steps. -/
theorem exists_irreducible (metric : Array K) (us : List Nat) :
    ∃ s ws, Reduces metric us s ws ∧ Irreducible metric ws := by
  induction acc_rewrites metric us with
  | intro us _ ih =>
    by_cases hirr : Irreducible metric us
    · exact ⟨1, us, .refl us, hirr⟩
    · simp only [Irreducible, not_forall, not_not] at hirr
      obtain ⟨s, vs, hstep⟩ := hirr
      obtain ⟨t, ws, hreduces, hend⟩ := ih vs ⟨s, hstep⟩
      exact ⟨1 * s * t, ws, (Reduces.refl us).step hstep |>.trans hreduces, hend⟩

/-- A step keeps the blade of a word. -/
theorem Rewrites.wordBlade_eq (h : Rewrites metric us s ws) : wordBlade us = wordBlade ws := by
  cases h with
  | @swap us ws v w _ =>
    rw [wordBlade_append, wordBlade_append, wordBlade, wordBlade, wordBlade, wordBlade,
      ← Nat.xor_assoc (ofVector v), Nat.xor_comm (ofVector v), Nat.xor_assoc]
  | cancel us ws _ =>
    rw [wordBlade_append, wordBlade_append, wordBlade, wordBlade, Nat.xor_xor_cancel_left]

/-! ## Words without steps -/

theorem Rewrites.count_le (h : Rewrites metric us s ws) (v : Nat) : ws.count v ≤ us.count v := by
  cases h with
  | @swap us ws u w _ => exact ((List.Perm.swap u w ws).append_left us).count_eq v |>.le
  | @cancel us ws u s _ => exact ((((List.Sublist.refl ws).cons u).cons u).append_left us).count_le v

theorem Reduces.hasSquares (h : Reduces metric us s ws) (hus : HasSquares metric us) :
    HasSquares metric ws := by
  induction h with
  | refl => exact hus
  | step _ hstep ih => exact fun v hv => ih v (hv.trans (hstep.count_le v))

/-- An ascending word has no step. -/
theorem irreducible_of_pairwise (h : us.Pairwise (· < ·)) : Irreducible metric us := by
  intro s ws hstep
  cases hstep with
  | swap xs ys hlt =>
    have hpair := (List.pairwise_cons.mp (List.pairwise_append.mp h).2.1).1 _ List.mem_cons_self
    exact Nat.lt_asymm hlt hpair
  | cancel xs ys _ =>
    have hpair := (List.pairwise_cons.mp (List.pairwise_append.mp h).2.1).1 _ List.mem_cons_self
    exact Nat.lt_irrefl _ hpair

/-- A word without steps ascends. -/
theorem Irreducible.pairwise (hirr : Irreducible metric us) (hus : HasSquares metric us) :
    us.Pairwise (· < ·) := by
  rw [← List.isChain_iff_pairwise, List.isChain_iff_forall_rel_of_append_cons_cons]
  rintro v w xs ys rfl
  rcases Nat.lt_trichotomy v w with hlt | rfl | hgt
  · exact hlt
  · have hsize : v < metric.size := by
      apply hus
      rw [List.count_append, List.count_cons_self, List.count_cons_self]
      omega
    exact absurd (.cancel xs ys (Array.getElem?_eq_getElem hsize)) (hirr _ _)
  · exact absurd (.swap xs ys hgt) (hirr _ _)

end Rewriting

/-! ## The product of a word -/

section Product

variable {K : Type} [Field K] [LinearOrder K] (metric : Array K) {us vs ws : List Nat} {s : K}

/-- The coefficient of the product of the vectors of a word. -/
def wordFactor : List Nat → K
  | [] => 1
  | v :: vs => coefficient metric (ofVector v) (wordBlade vs) * wordFactor vs

/-- The products of two words multiply to the product of the words in a row. -/
theorem wordFactor_append (us ws : List Nat) : wordFactor metric (us ++ ws) =
    wordFactor metric us * wordFactor metric ws *
      coefficient metric (wordBlade us) (wordBlade ws) := by
  induction us with
  | nil => simp [wordFactor, wordBlade]
  | cons u us ih =>
    have hcocycle := coefficient_cocycle metric (ofVector u) (wordBlade us) (wordBlade ws)
    rw [List.cons_append, wordFactor, ih, wordBlade_append, wordFactor, wordBlade]
    linear_combination (-(wordFactor metric us * wordFactor metric ws)) * hcocycle

/-! ### Ascending words -/

/-- A vector below those of a blade needs no swaps. -/
theorem swaps_ofVector_left {v : Nat} (h : ∀ u ∈ us, v < u) (hnodup : us.Nodup) :
    swaps (ofVector v) (ofVectors us) = 0 := by
  have hswaps := swaps_add_swaps (ofVector v) (ofVectors us)
  -- all vectors of the blade would pass it from the left
  have hall : grade (ofVectors us >>> (v + 1)) = grade (ofVectors us) := by
    rw [grade_shiftRight, (perm_vectors_ofVectors hnodup).countP_eq, grade_ofVectors hnodup,
      List.countP_eq_length]
    exact fun u hu => decide_eq_true (h u hu)
  rw [swaps_ofVector, grade_ofVector, hall] at hswaps
  omega

theorem wordFactor_of_pairwise (h : us.Pairwise (· < ·)) : wordFactor metric us = 1 := by
  induction us with
  | nil => rfl
  | cons u us ih =>
    have hblade := wordBlade_of_pairwise (List.pairwise_cons.mp h).2
    have hnodup : us.Nodup := (List.pairwise_cons.mp h).2.imp Nat.ne_of_lt
    rw [List.pairwise_cons] at h
    have hshared : metricFactor metric (ofVector u) (ofVectors us) = 1 := by
      rw [metricFactor, Nat.and_comm, and_ofVector (testBit_ofVectors_of_lt h.1)]
      rfl
    rw [wordFactor, ih h.2, mul_one, hblade, coefficient_eq, reorderingSign,
      swaps_ofVector_left h.1 hnodup, hshared, mul_one]
    rfl

theorem wordFactor_vectors (a : Blade) : wordFactor metric (vectors a) = 1 :=
  wordFactor_of_pairwise metric (pairwise_vectors a)

/-- The vectors of two blades multiply to the product of the blades. -/
theorem wordFactor_vectors_append (a b : Blade) :
    wordFactor metric (vectors a ++ vectors b) = coefficient metric a b := by
  rw [wordFactor_append, wordFactor_vectors, wordFactor_vectors, wordBlade_vectors,
    wordBlade_vectors, mul_one, one_mul]

/-! ### Steps keep the product -/

/-- Two different vectors change their sign with their order. -/
theorem coefficient_swap {v w : Nat} (h : w ≠ v) : coefficient metric (ofVector v) (ofVector w) =
    -coefficient metric (ofVector w) (ofVector v) := by
  have hdisjoint : ofVector v &&& ofVector w = 0 := by
    apply and_ofVector
    rw [testBit_ofVector, decide_eq_false h]
  rw [coefficient_comm, hdisjoint, grade_zero, grade_ofVector, grade_ofVector]
  exact neg_one_mul _

/-- A vector times itself is its square. -/
theorem coefficient_ofVector_self (v : Nat) :
    coefficient metric (ofVector v) (ofVector v) = square metric v := by
  rw [coefficient_eq, reorderingSign_self, grade_ofVector, metricFactor, Nat.and_self,
    vectors_ofVector, List.map_singleton, List.prod_singleton]
  exact one_mul _

variable {metric}

theorem Rewrites.wordFactor_eq (h : Rewrites metric us s ws) :
    wordFactor metric us = s * wordFactor metric ws := by
  have hblade := h.wordBlade_eq
  cases h with
  | @swap us ws v w hlt =>
    -- by the cocycle law, only the product of the two vectors with each other changes
    have hbefore := coefficient_cocycle metric (ofVector v) (ofVector w) (wordBlade ws)
    have hafter := coefficient_cocycle metric (ofVector w) (ofVector v) (wordBlade ws)
    rw [coefficient_swap metric hlt.ne, Nat.xor_comm] at hbefore
    rw [wordBlade_append, wordBlade_append, Nat.xor_right_inj] at hblade
    rw [wordFactor_append, wordFactor_append, hblade]
    simp only [wordFactor, wordBlade]
    generalize coefficient metric (wordBlade us) _ = c
    linear_combination (-(wordFactor metric us * wordFactor metric ws * c)) * (hbefore + hafter)
  | @cancel us ws v s hs =>
    have hsquare : coefficient metric (ofVector v) (ofVector v) = s := by
      rw [coefficient_ofVector_self, square, Array.getD_eq_getD_getElem?, hs, Option.getD_some]
    have hcocycle := coefficient_cocycle metric (ofVector v) (ofVector v) (wordBlade ws)
    rw [Nat.xor_self, coefficient_zero_left, mul_one, hsquare] at hcocycle
    rw [wordBlade_append, wordBlade_append, Nat.xor_right_inj] at hblade
    rw [wordFactor_append, wordFactor_append, hblade]
    simp only [wordFactor, wordBlade]
    generalize coefficient metric (wordBlade us) _ = c
    linear_combination (-(wordFactor metric us * wordFactor metric ws * c)) * hcocycle

/-- Steps in a row keep the blade of the word, and their factor is what the word loses. -/
theorem Reduces.product_eq (h : Reduces metric us s ws) :
    wordBlade us = wordBlade ws ∧ wordFactor metric us = s * wordFactor metric ws := by
  induction h with
  | refl => exact ⟨rfl, (one_mul _).symm⟩
  | step _ hstep ih =>
    exact ⟨ih.1.trans hstep.wordBlade_eq, by rw [ih.2, hstep.wordFactor_eq, mul_assoc]⟩

/-! ## Reduction of two blades -/

/-- The vectors of a blade followed by those of another, rewritten in any order until no step is
    left, are the vectors of the symmetric difference, and the factors multiply to the coefficient of
    the geometric product.  The metric has to have entries for the shared vectors only. -/
theorem normalizes_geometricProduct (metric : Array K) (a b : Blade)
    (h : ∀ v, a.testBit v = true → b.testBit v = true → v < metric.size) :
    Normalizes metric (vectors a ++ vectors b) (geometricProduct metric a b).1
      (vectors (a ^^^ b)) := by
  have hunique : ∀ s vs, Reduces metric (vectors a ++ vectors b) s vs → Irreducible metric vs →
      vs = vectors (a ^^^ b) ∧ s = (geometricProduct metric a b).1 := by
    intro s vs hreduces hirr
    have hascending := hirr.pairwise (hreduces.hasSquares (hasSquares_vectors_append h))
    obtain ⟨hblade, hfactor⟩ := hreduces.product_eq
    rw [wordBlade_append, wordBlade_vectors, wordBlade_vectors,
      wordBlade_of_pairwise hascending] at hblade
    rw [wordFactor_vectors_append, wordFactor_of_pairwise metric hascending, mul_one] at hfactor
    refine ⟨?_, hfactor.symm⟩
    apply BasisOrder.eq_of_ofVectors_eq hascending (pairwise_vectors _)
    rw [ofVectors_vectors, hblade]
  exact {
    terminates := acc_rewrites metric _
    irreducible := irreducible_of_pairwise (pairwise_vectors _)
    continues := fun s vs hreduces => by
      obtain ⟨t, ws, hrest, hirr⟩ := exists_irreducible metric vs
      obtain ⟨rfl, hfactor⟩ := hunique _ ws (hreduces.trans hrest) hirr
      exact ⟨t, hrest, hfactor⟩
    eq_of_irreducible := hunique }

/-- `e1^e2` times `e0^e1` with squares for `e0` and `e1` alone: three swaps and the square of `e1`
    leave `-3 e0^e2`. -/
theorem normalizes_sharedVector :
    (∀ v, Nat.testBit 6 v = true → Nat.testBit 3 v = true → v < #[(2 : ℚ), 3].size) ∧
      Normalizes #[(2 : ℚ), 3] [1, 2, 0, 1] (-3) [0, 2] := by
  have hshared : ∀ v, Nat.testBit 6 v = true → Nat.testBit 3 v = true →
      v < #[(2 : ℚ), 3].size := by
    intro v _ hv
    exact lt_of_testBit (n := 2) (by decide) hv
  have hnormalizes := normalizes_geometricProduct #[(2 : ℚ), 3] 6 3 hshared
  have hword : vectors 6 ++ vectors 3 = [1, 2, 0, 1] := by decide +kernel
  have hfactor : (geometricProduct #[(2 : ℚ), 3] 6 3).1 = -3 := by decide +kernel
  have hend : vectors (6 ^^^ 3) = [0, 2] := by decide +kernel
  rw [hword, hfactor, hend] at hnormalizes
  exact ⟨hshared, hnormalizes⟩

end Product

end GeometricAlgebra.Blade
