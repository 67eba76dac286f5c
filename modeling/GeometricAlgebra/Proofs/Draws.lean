/-
  GeometricAlgebra.Proofs.Draws

  What a random product is: the product of the vectors drawn from some state of the source, scaled
  to a random norm, if neither its norm is too small nor a scaled coordinate too large.

    * `Clifford.randomProduct_cases`: the first accepted draw, or an error after the last one.
    * `Clifford.AcceptedDraw`: the products that a request accepts.
    * `Clifford.acceptedDraw_of_randomBlade`, `acceptedDraw_of_randomVersor`: random blades and
      versors are such products.
    * `Clifford.testBit_of_randomComponents`: only the selected places have a component.
-/

import GeometricAlgebra.Random

namespace GeometricAlgebra.Clifford

open GeometricAlgebra.Random (Request)

variable {α σ : Type} [Elementary α] {A : Clifford α} {next : WordSource σ} {kind : ProductKind}
  {r : Request α} {s s' : σ} {x : Multivector α}

/-! ## Components -/

/-- A component that is not zero is at a selected place. -/
theorem testBit_of_randomComponents {basis : Blade} {places : List Nat} {k : Nat}
    (h : (randomComponents next basis places s : List α × σ).1.getD k 0 ≠ 0) :
    ∃ p, places[k]? = some p ∧ basis.testBit p = true := by
  induction places generalizing s k with
  | nil => exact absurd List.getD_nil h
  | cons p places ih =>
    rw [randomComponents] at h
    cases hp : basis.testBit p with
    | true =>
      rw [hp, if_pos rfl] at h
      cases k with
      | zero => exact ⟨p, rfl, hp⟩
      | succ k => exact ih (List.getD_cons_succ ▸ h)
    | false =>
      rw [hp, if_neg (by decide)] at h
      cases k with
      | zero => exact absurd List.getD_cons_zero h
      | succ k => exact ih (List.getD_cons_succ ▸ h)

/-! ## Attempts -/

/-- The state after `k` draws. -/
def afterDraws (A : Clifford α) (next : WordSource σ) (kind : ProductKind) (r : Request α) :
    Nat → σ → σ
  | 0, s => s
  | k + 1, s => afterDraws A next kind r k (A.drawProduct next kind r s).2

/-- Draw `k` from a state on, counted from zero; nothing if it is rejected. -/
def attempt (A : Clifford α) (next : WordSource σ) (kind : ProductKind) (r : Request α) (s : σ)
    (k : Nat) : Option (Multivector α) × σ :=
  A.drawProduct next kind r (A.afterDraws next kind r k s)

/-- Drawing ends with the first draw that is accepted, or with none if all are rejected. -/
theorem drawUntil_cases (attempts : Nat) (s : σ) :
    (∃ k < attempts, ∃ x s', A.attempt next kind r s k = (some x, s') ∧
      (∀ j < k, (A.attempt next kind r s j).1 = none) ∧
      A.drawUntil next kind r attempts s = (some x, s')) ∨
    (∀ k < attempts, (A.attempt next kind r s k).1 = none) ∧
      A.drawUntil next kind r attempts s = (none, A.afterDraws next kind r attempts s) := by
  induction attempts generalizing s with
  | zero => exact .inr ⟨fun k hk => absurd hk (Nat.not_lt_zero k), rfl⟩
  | succ attempts ih =>
    rw [drawUntil]
    obtain ⟨⟨_ | x, t⟩, hdraw⟩ : ∃ d, A.drawProduct next kind r s = d := ⟨_, rfl⟩
    · -- the first draw is rejected, and the others start from the state after it
      have hfirst : (A.attempt next kind r s 0).1 = none := congrArg Prod.fst hdraw
      have hafter : ∀ k, A.afterDraws next kind r (k + 1) s = A.afterDraws next kind r k t :=
        fun k => congrArg (A.afterDraws next kind r k) (congrArg Prod.snd hdraw)
      have hlater : ∀ k, A.attempt next kind r s (k + 1) = A.attempt next kind r t k :=
        fun k => congrArg (A.drawProduct next kind r) (hafter k)
      rw [hdraw]
      rcases ih t with ⟨k, hk, x, s', haccepted, hrejected, hresult⟩ | ⟨hrejected, hresult⟩
      · refine .inl ⟨k + 1, Nat.succ_lt_succ hk, x, s', (hlater k).trans haccepted, ?_, hresult⟩
        rintro (_ | j) hj
        · exact hfirst
        · rw [hlater]
          exact hrejected j (Nat.lt_of_succ_lt_succ hj)
      · refine .inr ⟨?_, hresult.trans (by rw [hafter])⟩
        rintro (_ | j) hj
        · exact hfirst
        · rw [hlater]
          exact hrejected j (Nat.lt_of_succ_lt_succ hj)
    · refine .inl ⟨0, Nat.succ_pos _, x, t, hdraw, fun j hj => absurd hj (Nat.not_lt_zero j), ?_⟩
      rw [hdraw]

/-- A random product is the first of a number of draws that is accepted; if all are rejected, it is
    an error. -/
theorem randomProduct_cases (kind : ProductKind) (s : σ) :
    (∃ k < Random.maxAttempts, ∃ x s', A.attempt next kind r s k = (some x, s') ∧
      (∀ j < k, (A.attempt next kind r s j).1 = none) ∧
      A.randomProduct next kind r s = (.ok x, s')) ∨
    (∀ k < Random.maxAttempts, (A.attempt next kind r s k).1 = none) ∧
      A.randomProduct next kind r s =
        (.error (.invalidAlgebra (.noAcceptableDraw r.grade Random.maxAttempts)),
          A.afterDraws next kind r Random.maxAttempts s) := by
  rcases A.drawUntil_cases Random.maxAttempts s with
    ⟨k, hk, x, s', haccepted, hrejected, hresult⟩ | ⟨hrejected, hresult⟩
  · exact .inl ⟨k, hk, x, s', haccepted, hrejected, by rw [randomProduct, hresult]⟩
  · exact .inr ⟨hrejected, by rw [randomProduct, hresult]⟩

/-! ## Accepted products -/

/-- The product of the vectors drawn from a state, before scaling. -/
def drawnProduct (A : Clifford α) (next : WordSource σ) (kind : ProductKind) (r : Request α)
    (s : σ) : Multivector α :=
  (A.randomFactors next kind r.basis r.grade (.scalar 1) s).1

/-- The factor that gives a product a random norm below the scale. -/
def drawnFactor (A : Clifford α) (r : Request α) (x : Multivector α) (w : UInt64) : α :=
  r.scale * Random.unitDraw w / Elementary.sqrt (Scalar.abs (A.norm2 x))

/-- A product drawn from some state and scaled by some word, within the bounds of the request. -/
inductive AcceptedDraw (A : Clifford α) (next : WordSource σ) (kind : ProductKind)
    (r : Request α) : Multivector α → Prop where
  | intro (s : σ) (w : UInt64) :
      ¬ Scalar.abs (A.norm2 (A.drawnProduct next kind r s)) ≤ r.minimumNorm * r.minimumNorm →
      ¬ r.largest < (A.drawnProduct next kind r s).largestCoordinate *
        A.drawnFactor r (A.drawnProduct next kind r s) w →
      AcceptedDraw A next kind r (A.scale (A.drawnProduct next kind r s)
        (A.drawnFactor r (A.drawnProduct next kind r s) w))

theorem acceptedDraw_of_drawProduct (h : A.drawProduct next kind r s = (some x, s')) :
    A.AcceptedDraw next kind r x := by
  simp only [drawProduct] at h
  split at h
  · exact absurd (congrArg Prod.fst h) (by simp)
  · next hnorm =>
    split at h
    · exact absurd (congrArg Prod.fst h) (by simp)
    · next hlargest =>
      rw [← Option.some.inj (congrArg Prod.fst h)]
      exact .intro s _ hnorm hlargest

/-- A draw within the bounds is accepted, whatever word is drawn for the scale. -/
theorem exists_drawProduct_eq
    (hnorm : ¬ Scalar.abs (A.norm2 (A.drawnProduct next kind r s)) ≤
      r.minimumNorm * r.minimumNorm)
    (hlargest : ∀ w, ¬ r.largest < (A.drawnProduct next kind r s).largestCoordinate *
      A.drawnFactor r (A.drawnProduct next kind r s) w) :
    ∃ x s', A.drawProduct next kind r s = (some x, s') := by
  simp only [drawProduct]
  exact ⟨_, _, (if_neg hnorm).trans (if_neg (hlargest _))⟩

theorem acceptedDraw_of_drawUntil {attempts : Nat}
    (h : A.drawUntil next kind r attempts s = (some x, s')) : A.AcceptedDraw next kind r x := by
  induction attempts generalizing s with
  | zero => exact absurd (congrArg Prod.fst h) (by simp [drawUntil])
  | succ attempts ih =>
    rw [drawUntil] at h
    split at h
    · next y t hdraw =>
      rw [← Option.some.inj (congrArg Prod.fst h)]
      exact acceptedDraw_of_drawProduct hdraw
    · exact ih h

theorem acceptedDraw_of_randomProduct (h : A.randomProduct next kind r s = (.ok x, s')) :
    A.AcceptedDraw next kind r x := by
  rw [randomProduct] at h
  split at h
  · next y t hdraw =>
    rw [← Except.ok.inj (congrArg Prod.fst h)]
    exact acceptedDraw_of_drawUntil hdraw
  · exact absurd (congrArg Prod.fst h) (by simp)

/-- A random blade is an accepted outer product. -/
theorem acceptedDraw_of_randomBlade (h : A.randomBlade next r s = (.ok x, s')) :
    A.AcceptedDraw next .outer r x := by
  simp only [randomBlade] at h
  split at h
  · exact absurd (congrArg Prod.fst h) (by simp)
  · exact acceptedDraw_of_randomProduct h

/-- A random versor is an accepted geometric product. -/
theorem acceptedDraw_of_randomVersor (h : A.randomVersor next r s = (.ok x, s')) :
    A.AcceptedDraw next .geometric r x := by
  simp only [randomVersor] at h
  split at h
  · exact absurd (congrArg Prod.fst h) (by simp)
  · exact acceptedDraw_of_randomProduct h

end GeometricAlgebra.Clifford
