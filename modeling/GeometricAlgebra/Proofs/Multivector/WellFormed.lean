/-
  GeometricAlgebra.Proofs.Multivector.WellFormed

  Versors, the exponential family, random products and read texts are well formed.  All of them
  end in a compressed dense buffer or combine well-formed multivectors.

    * `Clifford.wellFormed_exp`, `wellFormed_log` and their siblings.
    * `Clifford.AcceptedDraw.wellFormed`: random products, whatever the words drawn.
    * `Clifford.wellFormed_parse`: read texts.
-/

import GeometricAlgebra.Multivector.Exponential
import GeometricAlgebra.Proofs.Draws
import GeometricAlgebra.Text.Expression
import GeometricAlgebra.Proofs.Multivector.Dense
import GeometricAlgebra.Proofs.Multivector.Gradewise

namespace GeometricAlgebra

namespace Clifford

section Algebraic

variable {α : Type} [Scalar α] {A : Clifford α} {x y v w : Multivector α}

variable (hT : A.table.Lawful)
include hT

/-! ## Versors -/

omit hT in
theorem wellFormed_versorInverse (hv : v.WellFormed A) : (A.versorInverse v).WellFormed A :=
  wellFormed_mapGroups (fun _ _ => Array.size_map) hv

theorem wellFormed_applyVersorWith (v x w : Multivector α) :
    (A.applyVersorWith v x w).WellFormed A :=
  wellFormed_extract (wellFormed_product hT _ _ _) _

theorem wellFormed_increment (hx : x.WellFormed A) : (A.increment x).WellFormed A :=
  wellFormed_add hx (Multivector.wellFormed_scalar hT 1)

theorem wellFormed_decrement (hx : x.WellFormed A) : (A.decrement x).WellFormed A :=
  wellFormed_subtract hx (Multivector.wellFormed_scalar hT 1)

/-! ## Read texts -/

omit hT in
theorem size_addTerm (dense : Coordinates α) (t : Text.Term α) :
    (A.addTerm dense t).size = dense.size :=
  Array.size_modify

theorem wellFormed_evaluate (terms : List (Text.Term α)) : (A.evaluate terms).WellFormed A := by
  refine wellFormed_compress hT (Nat.le_of_eq ?_) 0 _
  rw [Coordinates.size_foldl size_addTerm, size_denseZeros]

end Algebraic

theorem wellFormed_parse {α : Type} [Numeral α] {A : Clifford α} (hT : A.table.Lawful)
    {text : String} {x : Multivector α} (h : A.parse text = .ok x) : x.WellFormed A := by
  obtain ⟨terms, -, hx⟩ := bind_eq_ok_iff.mp h
  rw [← Except.ok.inj hx]
  exact wellFormed_evaluate hT terms

/-! ## The exponential family -/

section Exponential

variable {α : Type} [Elementary α] {A : Clifford α} {x : Multivector α} (hT : A.table.Lawful)
  (hx : x.WellFormed A)
include hT

theorem wellFormed_squareTimes (k : Nat) {y : Multivector α} (hy : y.WellFormed A) :
    (A.squareTimes k y).WellFormed A := by
  induction k generalizing y with
  | zero => exact hy
  | succ k ih => exact ih (wellFormed_product hT .geometric y y)

theorem wellFormed_nextTerm (x term : Multivector α) (i : Nat) :
    (A.nextTerm x term i).WellFormed A :=
  wellFormed_scale hT (wellFormed_product hT .geometric term x) _

theorem wellFormed_taylorExp (x : Multivector α) (order : Nat) :
    (A.taylorExp x order).WellFormed A := by
  -- the sum so far stays well formed, whatever the last term is
  refine List.foldlRecOn (motive := fun p : Multivector α × Multivector α => p.1.WellFormed A) _ _
    (Multivector.wellFormed_scalar hT 1) ?_
  intro p hsum i _
  exact wellFormed_add hsum (wellFormed_nextTerm hT x p.2 i)

theorem wellFormed_alternatingSeries (x : Multivector α) (order parity : Nat) :
    (A.alternatingSeries x order parity).WellFormed A := by
  -- the series keeps terms of one parity only; the first sum is one or zero
  refine List.foldlRecOn (motive := fun p : Multivector α × Multivector α => p.1.WellFormed A) _ _
    ?_ ?_
  · by_cases hp : parity = 0
    · simpa [hp] using Multivector.wellFormed_scalar hT 1
    · simpa [hp] using Multivector.wellFormed_zero
  · intro p hsum i _
    have hnext := wellFormed_nextTerm hT x p.2 i
    by_cases hskip : i % 2 ≠ parity
    · simpa [hskip] using hsum
    · by_cases hplus : i / 2 % 2 = 0
      · simpa [hskip, hplus] using wellFormed_add hsum hnext
      · simpa [hskip, hplus] using wellFormed_subtract hsum hnext

theorem wellFormed_expSeries (x : Multivector α) (order : Nat) :
    (A.expSeries x order).WellFormed A := by
  rw [expSeries]
  by_cases horder : order = 0
  · rw [if_pos horder]
    exact Multivector.wellFormed_scalar hT 1
  · rw [if_neg horder]
    exact wellFormed_squareTimes hT _ (wellFormed_taylorExp hT _ order)

include hx

theorem wellFormed_exp (order : Nat) : (A.exp x order).WellFormed A := by
  -- a square that is no scalar needs the series; otherwise the sign of the square decides
  rw [exp]
  rcases (A.scalarSquare? x).map SquareRoot.of with - | (a | a | -)
  · exact wellFormed_expSeries hT x order
  · exact wellFormed_scaleAndAdd hx _ _
  · exact wellFormed_scaleAndAdd hx _ _
  · exact wellFormed_increment hT hx

theorem wellFormed_sinh (order : Nat) : (A.sinh x order).WellFormed A := by
  rw [sinh]
  rcases (A.scalarSquare? x).map SquareRoot.of with - | (a | a | -)
  · exact wellFormed_scale hT
      (wellFormed_subtract (wellFormed_exp hT hx order) (wellFormed_exp hT (hx.map _) order)) _
  · exact wellFormed_scale hT hx _
  · exact wellFormed_scale hT hx _
  · exact hx

theorem wellFormed_cosh (order : Nat) : (A.cosh x order).WellFormed A := by
  rw [cosh]
  rcases (A.scalarSquare? x).map SquareRoot.of with - | (a | a | -)
  · exact wellFormed_scale hT
      (wellFormed_add (wellFormed_exp hT hx order) (wellFormed_exp hT (hx.map _) order)) _
  all_goals exact Multivector.wellFormed_scalar hT _

theorem wellFormed_sin (order : Nat) : (A.sin x order).WellFormed A := by
  rw [sin]
  rcases (A.scalarSquare? x).map SquareRoot.of with - | (a | a | -)
  · exact wellFormed_alternatingSeries hT x order 1
  · exact wellFormed_scale hT hx _
  · exact wellFormed_scale hT hx _
  · exact hx

omit hx in
theorem wellFormed_cos (x : Multivector α) (order : Nat) : (A.cos x order).WellFormed A := by
  rw [cos]
  rcases (A.scalarSquare? x).map SquareRoot.of with - | (a | a | -)
  · exact wellFormed_alternatingSeries hT x order 0
  all_goals exact Multivector.wellFormed_scalar hT _

omit hT hx in
theorem euclideanPlane_lt {plane : Blade} (h : A.euclideanPlane = .ok plane) :
    plane < 2 ^ A.dimension := by
  rw [euclideanPlane] at h
  have hmem : ∀ i ∈ (List.range A.dimension).filter fun i => A.metric.getD i 0 == 1,
      Blade.ofVector i < 2 ^ A.dimension := by
    intro i hi
    rw [Blade.ofVector, Nat.one_shiftLeft]
    exact Nat.pow_lt_pow_right (by decide) (List.mem_range.mp (List.mem_filter.mp hi).1)
  split at h
  · next i j _ hvectors =>
    rw [hvectors] at hmem
    rw [← Except.ok.inj h]
    exact Nat.or_lt_two_pow (hmem i (by simp)) (hmem j (by simp))
  · exact absurd h (by simp)

theorem wellFormed_log {y : Multivector α} (h : A.log x = .ok y) : y.WellFormed A := by
  simp only [log] at h
  split at h
  · split at h
    · rw [← Except.ok.inj h]
      exact Multivector.wellFormed_zero
    · obtain ⟨plane, hplane, hy⟩ := bind_eq_ok_iff.mp h
      rw [← Except.ok.inj hy]
      exact wellFormed_setCoordinate Multivector.wellFormed_zero (euclideanPlane_lt hplane) _
  · rw [← Except.ok.inj h]
    exact wellFormed_scale hT (wellFormed_extract hx _) _

end Exponential

/-! ## Random products -/

section Random

variable {α σ : Type} [Elementary α] {A : Clifford α} {next : WordSource σ}
  (hT : A.table.Lawful)
include hT

theorem wellFormed_randomFactors (kind : ProductKind) (basis : Blade) (k : Nat)
    {x : Multivector α} (hx : x.WellFormed A) (s : σ) :
    (A.randomFactors next kind basis k x s).1.WellFormed A := by
  induction k generalizing x s with
  | zero => exact hx
  | succ k ih => exact ih (wellFormed_product hT kind _ _) _

/-- Whatever words are drawn, an accepted random product is well formed. -/
theorem AcceptedDraw.wellFormed {kind : ProductKind} {r : Random.Request α} {x : Multivector α}
    (h : A.AcceptedDraw next kind r x) : x.WellFormed A := by
  obtain ⟨s, w, -, -⟩ := h
  have hscalar : (Multivector.scalar (1 : α)).WellFormed A := Multivector.wellFormed_scalar hT 1
  exact wellFormed_scale hT (wellFormed_randomFactors hT kind r.basis r.grade hscalar s) _

theorem wellFormed_randomBlade {r : Random.Request α} {s s' : σ} {x : Multivector α}
    (h : A.randomBlade next r s = (.ok x, s')) : x.WellFormed A :=
  (acceptedDraw_of_randomBlade h).wellFormed hT

theorem wellFormed_randomVersor {r : Random.Request α} {s s' : σ} {x : Multivector α}
    (h : A.randomVersor next r s = (.ok x, s')) : x.WellFormed A :=
  (acceptedDraw_of_randomVersor h).wellFormed hT

end Random

end Clifford

end GeometricAlgebra
