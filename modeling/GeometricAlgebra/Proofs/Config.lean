/-
  GeometricAlgebra.Proofs.Config

  What an accepted description promises: the basis order it resolves to is
  complete, and the metric has one entry for each basis vector.

    * `resolveBlades_cons`: what one listed blade has to satisfy.
    * `resolveBlades_eq_ok_iff`: what a list has to satisfy.
    * `complete_of_basisOrder`: a resolved basis order is complete.
-/

import GeometricAlgebra.Clifford
import GeometricAlgebra.Proofs.BasisOrder

namespace GeometricAlgebra

/-! ## Sequences that may fail -/

theorem bind_eq_ok_iff {ε β γ : Type} {x : Except ε β} {f : β → Except ε γ} {r : γ} :
    (x >>= f) = .ok r ↔ ∃ b, x = .ok b ∧ f b = .ok r := by
  cases x with
  | error e => simp [bind, Except.bind]
  | ok b => simp [bind, Except.bind]

theorem toOption_eq_some_iff {ε β : Type} {r : Except ε β} {b : β} :
    r.toOption = some b ↔ r = .ok b := by
  cases r <;> simp [Except.toOption]

/-- Behind a check that returns nothing, the sequence succeeds when both parts do. -/
theorem check_bind_eq_ok_iff {ε γ : Type} {x : Except ε Unit} {f : Unit → Except ε γ} {r : γ} :
    (x >>= f) = .ok r ↔ x = .ok () ∧ f () = .ok r := by
  rw [bind_eq_ok_iff]
  exact ⟨fun ⟨(), hx, hf⟩ => ⟨hx, hf⟩, fun ⟨hx, hf⟩ => ⟨(), hx, hf⟩⟩

namespace Config

open Blade (ofVectors)

variable {α : Type} {c : Config α}

/-! ## Resolving names -/

theorem vectorIndex?_lt {name : String} {i : Nat} (h : c.vectorIndex? name = some i) :
    i < c.dimension := by
  obtain ⟨hi, _⟩ := List.findIdx?_eq_some_iff_getElem.mp h
  exact hi

/-- A listed blade resolves to the indices of its names, in place. -/
theorem resolveBlade_eq_ok_iff {names : List String} {vs : List Nat} :
    c.resolveBlade names = .ok vs ↔ List.Forall₂ (fun v i => c.vectorIndex? v = some i) names vs := by
  unfold resolveBlade
  induction names generalizing vs with
  | nil =>
    rw [List.mapM_nil, List.forall₂_nil_left_iff]
    exact ⟨fun h => (Except.ok.inj h).symm, fun h => h ▸ rfl⟩
  | cons name names ih =>
    simp only [List.mapM_cons, bind_eq_ok_iff, List.forall₂_cons_left_iff, ih]
    constructor
    · rintro ⟨i, hi, is, his, h⟩
      refine ⟨i, is, ?_, his, (Except.ok.inj h).symm⟩
      cases hidx : c.vectorIndex? name with
      | none => simp [hidx] at hi
      | some j => simpa [hidx] using hi
    · rintro ⟨i, is, hi, his, rfl⟩
      exact ⟨i, by rw [hi], is, his, rfl⟩

/-! ## Blade lists -/

/-- The head of a blade list is resolved if its vectors are distinct, its grade is not below the
    last one and its blade is new; the others follow with that grade and blade. -/
theorem resolveBlades_cons {grade : Nat} {seen : List Blade} {names : List String}
    {rest : List (List String)} {order : BasisOrder} :
    c.resolveBlades grade seen (names :: rest) = .ok order ↔
      ∃ vs tail, c.resolveBlade names = .ok vs ∧ vs.Nodup ∧ grade ≤ vs.length ∧
        ofVectors vs ∉ seen ∧ c.resolveBlades vs.length (ofVectors vs :: seen) rest = .ok tail ∧
        order = vs :: tail := by
  rw [resolveBlades, bind_eq_ok_iff]
  refine exists_congr fun vs => ?_
  -- the three checks in the order in which they are made
  by_cases hvs : vs.Nodup
  · rw [Blade.wedge?_of_nodup hvs]
    by_cases hgrade : vs.length < grade
    · simp [hgrade, bind_eq_ok_iff, throw, throwThe, MonadExceptOf.throw, Nat.not_le.mpr hgrade]
    · by_cases hseen : ofVectors vs ∈ seen
      · simp [hgrade, hseen, bind_eq_ok_iff, throw, throwThe, MonadExceptOf.throw]
      · simp only [hgrade, hseen, hvs, List.contains_iff_mem, if_false, bind_eq_ok_iff,
          Nat.not_lt.mp hgrade, not_false_eq_true, true_and, exists_and_left]
        exact and_congr_right fun _ => exists_congr fun tail =>
          and_congr_right fun _ => ⟨fun h => (Except.ok.inj h).symm, fun h => h ▸ rfl⟩
  · rw [Blade.wedge?_eq_none_iff.mpr hvs]
    simp [hvs, throw, throwThe, MonadExceptOf.throw]

theorem lt_of_resolveBlade {names : List String} {vs : List Nat} (h : c.resolveBlade names = .ok vs) :
    ∀ v ∈ vs, v < c.dimension := by
  have hall := resolveBlade_eq_ok_iff.mp h
  intro v hv
  obtain ⟨i, hi, rfl⟩ := List.getElem_of_mem hv
  have hi' : i < names.length := by rwa [hall.length_eq]
  exact vectorIndex?_lt (hall.get hi' hi)

/-- A list resolves if its blades do and none of them is degenerate, out of order or listed before. -/
theorem resolveBlades_eq_ok_iff {grade : Nat} {seen : List Blade} {blades : List (List String)}
    {order : BasisOrder} : c.resolveBlades grade seen blades = .ok order ↔
      List.Forall₂ (fun names vs => c.resolveBlade names = .ok vs) blades order ∧
        (∀ vs ∈ order, vs.Nodup) ∧ (grade :: order.map List.length).Pairwise (· ≤ ·) ∧
        (order.map ofVectors).Nodup ∧ ∀ b ∈ order.map ofVectors, b ∉ seen := by
  induction blades generalizing grade seen order with
  | nil =>
    rw [List.forall₂_nil_left_iff]
    constructor
    · intro h
      obtain rfl : order = [] := (Except.ok.inj h).symm
      simp
    · rintro ⟨rfl, -⟩
      rfl
  | cons names rest ih =>
    -- the tail is resolved with the grade of the head as bound and its blade as seen
    simp only [resolveBlades_cons, List.forall₂_cons_left_iff, ih]
    constructor
    · rintro ⟨vs, tail, hres, hvs, hgrade, hseen, ⟨hall, hmem, hgraded, hdistinct, hfresh⟩, rfl⟩
      simp only [List.mem_cons, not_or] at hfresh
      refine ⟨⟨vs, tail, hres, hall, rfl⟩, List.forall_mem_cons.mpr ⟨hvs, hmem⟩, ?_, ?_, ?_⟩
      · rw [List.map_cons, List.pairwise_cons]
        refine ⟨?_, hgraded⟩
        intro k hk
        rcases List.mem_cons.mp hk with rfl | hk
        · exact hgrade
        · exact hgrade.trans (List.rel_of_pairwise_cons hgraded hk)
      · rw [List.map_cons, List.nodup_cons]
        exact ⟨fun hb => (hfresh _ hb).1 rfl, hdistinct⟩
      · rw [List.map_cons, List.forall_mem_cons]
        exact ⟨hseen, fun b hb => (hfresh b hb).2⟩
    · rintro ⟨⟨vs, tail, hres, hall, rfl⟩, hmem, hgraded, hdistinct, hfresh⟩
      rw [List.forall_mem_cons] at hmem
      rw [List.map_cons] at hgraded hdistinct hfresh
      rw [List.nodup_cons] at hdistinct
      rw [List.forall_mem_cons] at hfresh
      refine ⟨vs, tail, hres, hmem.1, List.rel_of_pairwise_cons hgraded List.mem_cons_self, hfresh.1,
        ⟨hall, hmem.2, hgraded.of_cons, hdistinct.2, fun b hb => ?_⟩, rfl⟩
      rw [List.mem_cons, not_or]
      exact ⟨fun h => hdistinct.1 (h ▸ hb), hfresh.2 b hb⟩

/-- A resolved list keeps its length, and its vectors are those of the algebra. -/
theorem resolveBlades_spec {grade : Nat} {seen : List Blade} {blades : List (List String)}
    {order : BasisOrder} (h : c.resolveBlades grade seen blades = .ok order) :
    order.length = blades.length ∧
      (∀ vs ∈ order, vs.Nodup ∧ ∀ v ∈ vs, v < c.dimension) ∧
      (grade :: order.map List.length).Pairwise (· ≤ ·) ∧
      (order.map ofVectors).Nodup ∧ ∀ b ∈ order.map ofVectors, b ∉ seen := by
  obtain ⟨hall, hmem, hrest⟩ := resolveBlades_eq_ok_iff.mp h
  refine ⟨hall.length_eq.symm, fun vs hvs => ⟨hmem vs hvs, ?_⟩, hrest⟩
  obtain ⟨i, hi, rfl⟩ := List.getElem_of_mem hvs
  exact lt_of_resolveBlade (hall.get (hall.length_eq ▸ hi) hi)

/-! ## Valid names -/

/-- Names are accepted if they are identifiers, different from each other and from earlier ones. -/
theorem checkNames_eq_ok_iff {algebra : String} {earlier names : List String} :
    checkNames algebra earlier names = .ok () ↔
      (∀ v ∈ names, isIdentifier v = true) ∧ names.Nodup ∧ ∀ v ∈ names, v ∉ earlier := by
  induction names generalizing earlier with
  | nil => simp [checkNames]
  | cons v vs ih =>
    rw [checkNames]
    by_cases hv : isIdentifier v = true
    · by_cases hearlier : v ∈ earlier
      · simp [hv, hearlier]
      · rw [if_neg (by simp [hv]), if_neg (by simpa using hearlier), ih, List.nodup_cons]
        simp only [List.forall_mem_cons, List.mem_append, List.mem_singleton, not_or]
        grind
    · simp [hv]

/-! ## Accepted descriptions -/

theorem validate_eq_ok_iff : c.validate = .ok () ↔
    c.dimension ≠ 0 ∧ c.dimension ≤ maxDimension ∧ checkNames c.name [] c.vectors = .ok () ∧
      ∀ m, c.metric = some m → m.length = c.dimension := by
  have hmetric : c.checkMetric = .ok () ↔ ∀ m, c.metric = some m → m.length = c.dimension := by
    unfold checkMetric
    cases c.metric with
    | none => simp
    | some m => by_cases hm : m.length = c.dimension <;> simp [hm]
  rw [← hmetric, validate]
  by_cases hdim : c.dimension = 0 ∨ maxDimension < c.dimension
  · rw [if_pos hdim, check_bind_eq_ok_iff]
    constructor
    · rintro ⟨h, _⟩
      simp [throw, throwThe, MonadExceptOf.throw] at h
    · rintro ⟨h0, hmax, _⟩
      omega
  · rw [if_neg hdim]
    have h0 : c.dimension ≠ 0 := fun h => hdim (.inl h)
    have hmax : c.dimension ≤ maxDimension := Nat.not_lt.mp fun h => hdim (.inr h)
    simp [check_bind_eq_ok_iff, h0, hmax]

/-- An accepted description is valid, and it declares no blade list or one that resolves. -/
theorem basisOrder_eq_ok_iff {order : BasisOrder} : c.basisOrder = .ok order ↔
    c.validate = .ok () ∧
      match c.blades with
      | none => order = .standard c.dimension
      | some blades => blades.length = 2 ^ c.dimension ∧ c.resolveBlades 0 [] blades = .ok order := by
  rw [basisOrder, check_bind_eq_ok_iff]
  cases c.blades with
  | none => simp [pure, Except.pure, eq_comm]
  | some blades =>
    by_cases hlen : blades.length = 2 ^ c.dimension
    · simp [Nat.one_shiftLeft, hlen]
    · simp [Nat.one_shiftLeft, hlen, check_bind_eq_ok_iff, throw, throwThe, MonadExceptOf.throw]

/-- A resolved basis order lists every blade of the dimension. -/
theorem complete_of_basisOrder {order : BasisOrder} (h : c.basisOrder = .ok order) :
    order.Complete c.dimension := by
  obtain ⟨-, h⟩ := basisOrder_eq_ok_iff.mp h
  cases hb : c.blades with
  | none =>
    rw [hb] at h
    rw [h]
    exact BasisOrder.complete_standard c.dimension
  | some blades =>
    rw [hb] at h
    obtain ⟨hlen, hmem, hgraded, hdistinct, -⟩ := resolveBlades_spec h.2
    exact {
      nodup := fun vs hvs => (hmem vs hvs).1
      lt := fun vs hvs => (hmem vs hvs).2
      graded := hgraded.of_cons
      distinct := hdistinct
      length_eq := hlen.trans h.1 }

theorem length_metricDiagonal [Scalar α] (h : c.validate = .ok ()) :
    c.metricDiagonal.length = c.dimension := by
  obtain ⟨-, -, -, hmetric⟩ := validate_eq_ok_iff.mp h
  unfold metricDiagonal
  cases hm : c.metric with
  | none => simp
  | some m => simpa using hmetric m hm

end Config

/-! ## Algebras -/

/-- The algebra of an accepted description numbers the resolved basis order. -/
theorem Clifford.ofConfig_eq_ok_iff {α : Type} [Scalar α] {c : Config α} {A : Clifford α} :
    ofConfig c = .ok A ↔ ∃ order, c.basisOrder = .ok order ∧
      A = { config := c, table := .ofOrder c.dimension order, metric := c.metricDiagonal.toArray } := by
  rw [ofConfig, bind_eq_ok_iff]
  exact exists_congr fun order => and_congr_right fun _ =>
    ⟨fun h => (Except.ok.inj h).symm, fun h => h ▸ rfl⟩

end GeometricAlgebra
