/-
  GeometricAlgebra.Proofs.Acceptance

  Which descriptions define an algebra.  A blade list is checked for its length, its names, its
  grades and for repetitions only; that the accepted lists are those that name every set of vectors
  once follows by counting, and no orientation is asked for.

    * `Config.namesEverySet_iff`: as many sets as there are, and none of them twice.
    * `Config.basisOrder_eq_ok_iff_accepted`: an accepted list is resolved in place.
    * `Config.failsByFault_basisOrder`: every failure is a fault of the algebra.
    * `Clifford.acceptance_of_config`: the accepted descriptions.
-/

import GeometricAlgebra.Binary64
import GeometricAlgebra.Proofs.Config
import Mathlib

namespace GeometricAlgebra

namespace Config

open Blade (ofVectors)

/-! ## What is accepted -/

/-- The letters that a name begins with. -/
def IsLetter (ch : Char) : Prop := ('A' ≤ ch ∧ ch ≤ 'Z') ∨ ('a' ≤ ch ∧ ch ≤ 'z') ∨ ch = '_'

/-- The digits that may follow. -/
def IsDigit (ch : Char) : Prop := '0' ≤ ch ∧ ch ≤ '9'

/-- A letter, then letters and digits. -/
def IsName (name : String) : Prop :=
  ∃ first rest, name.toList = first :: rest ∧ IsLetter first ∧ ∀ ch ∈ rest, IsLetter ch ∨ IsDigit ch

/-- Every set of vectors is named once, its vectors in any order, the smaller sets first. -/
structure NamesEverySet (vectors : List String) (blades : List (List String)) : Prop where
  nodup : ∀ names ∈ blades, names.Nodup
  subset : ∀ names ∈ blades, names ⊆ vectors
  once : ∀ s ⊆ vectors.toFinset, (blades.map List.toFinset).count s = 1
  graded : (blades.map List.length).Pairwise (· ≤ ·)

/-- One to twelve vectors of different names, a square for each of them if squares are given, and
    every set of them if blades are. -/
structure Accepted {α : Type} (c : Config α) : Prop where
  dimension_pos : 1 ≤ c.vectors.length
  dimension_le : c.vectors.length ≤ 12
  names : ∀ name ∈ c.vectors, IsName name
  distinct : c.vectors.Nodup
  metric : ∀ m, c.metric = some m → m.length = c.vectors.length
  blades : ∀ blades, c.blades = some blades → NamesEverySet c.vectors blades

variable {α : Type} {c : Config α}

/-! ## Names -/

theorem isNameStart_eq_true_iff {ch : Char} : isNameStart ch = true ↔ IsLetter ch := by
  simp only [isNameStart, Char.isAlpha, Char.isUpper, Char.isLower, Bool.or_eq_true,
    Bool.and_eq_true, decide_eq_true_eq, beq_iff_eq, IsLetter, or_assoc]
  rfl

theorem isNameRest_eq_true_iff {ch : Char} : isNameRest ch = true ↔ IsLetter ch ∨ IsDigit ch := by
  have hstart : isNameStart ch = true ↔ IsLetter ch := isNameStart_eq_true_iff
  have hdigit : ch.isDigit = true ↔ IsDigit ch := by
    simp only [Char.isDigit, Bool.and_eq_true, decide_eq_true_eq, IsDigit]
    rfl
  rw [← hstart, ← hdigit, isNameRest, isNameStart, Char.isAlphanum]
  simp only [Bool.or_eq_true]
  exact or_right_comm

theorem isIdentifier_eq_true_iff {name : String} : isIdentifier name = true ↔ IsName name := by
  rw [isIdentifier, IsName]
  cases name.toList with
  | nil => simp
  | cons first rest =>
    simp [isNameStart_eq_true_iff, isNameRest_eq_true_iff]

/-! ## Names and indices -/

theorem vectorIndex?_eq_some_iff {name : String} {i : Nat} :
    c.vectorIndex? name = some i ↔ name ∈ c.vectors ∧ c.vectors.idxOf name = i := by
  rw [vectorIndex?, List.findIdx?_eq_some_iff_findIdx_eq, ← List.idxOf_lt_length_iff]
  exact ⟨fun ⟨hlt, hi⟩ => ⟨by rw [List.idxOf, hi]; exact hlt, hi⟩, fun ⟨hlt, hi⟩ => ⟨hi ▸ hlt, hi⟩⟩

/-- A listed blade resolves if the vectors have its names, and then in place. -/
theorem resolveBlade_eq_ok_iff_map {names : List String} {vs : List Nat} :
    c.resolveBlade names = .ok vs ↔ names ⊆ c.vectors ∧ vs = names.map c.vectors.idxOf := by
  rw [resolveBlade_eq_ok_iff]
  simp only [vectorIndex?_eq_some_iff]
  induction names generalizing vs with
  | nil => simp
  | cons name names ih =>
    simp only [List.forall₂_cons_left_iff, ih, List.cons_subset, List.map_cons]
    constructor
    · rintro ⟨_, _, ⟨hname, rfl⟩, ⟨hnames, rfl⟩, rfl⟩
      exact ⟨⟨hname, hnames⟩, rfl⟩
    · rintro ⟨⟨hname, hnames⟩, rfl⟩
      exact ⟨_, _, ⟨hname, rfl⟩, ⟨hnames, rfl⟩, rfl⟩

/-! ## Blade lists -/

theorem forall₂_and_map_iff {β γ : Type} {p : β → Prop} {f : β → γ} {xs : List β} {ys : List γ} :
    List.Forall₂ (fun x y => p x ∧ y = f x) xs ys ↔ (∀ x ∈ xs, p x) ∧ ys = xs.map f := by
  have hmap : List.Forall₂ (fun x y => y = f x) xs ys ↔ ys = xs.map f := by
    rw [eq_comm, ← List.forall₂_eq_eq_eq, List.forall₂_map_left_iff]
    simp only [eq_comm]
  rw [List.forall₂_and_left, hmap]

/-- Whether the values of a list repeat depends on when two of them are equal. -/
theorem nodup_map_congr {β γ δ : Type} {f : β → γ} {g : β → δ} {xs : List β}
    (h : ∀ x ∈ xs, ∀ y ∈ xs, f x = f y ↔ g x = g y) : (xs.map f).Nodup ↔ (xs.map g).Nodup := by
  rw [List.Nodup, List.pairwise_map, List.Nodup, List.pairwise_map]
  exact List.Pairwise.iff_of_mem fun hx hy => not_congr (h _ hx _ hy)

section Vectors

variable {vectors names us vs : List String}

theorem nodup_map_idxOf_iff (h : names ⊆ vectors) :
    (names.map vectors.idxOf).Nodup ↔ names.Nodup := by
  have hinj : ∀ u ∈ names, ∀ v ∈ names, vectors.idxOf u = vectors.idxOf v ↔ id u = id v :=
    fun u hu v _ => List.idxOf_inj (h hu)
  rw [nodup_map_congr hinj, List.map_id]

theorem mem_map_idxOf_iff (h : names ⊆ vectors) {v : String} :
    vectors.idxOf v ∈ names.map vectors.idxOf ↔ v ∈ names := by
  rw [List.mem_map]
  constructor
  · rintro ⟨u, hu, huv⟩
    rwa [← (List.idxOf_inj (h hu)).mp huv]
  · exact fun hv => ⟨v, hv, rfl⟩

/-- Two lists of names resolve to the same blade if they name the same set. -/
theorem ofVectors_map_idxOf_eq_iff (hu : us ⊆ vectors) (hv : vs ⊆ vectors) :
    ofVectors (us.map vectors.idxOf) = ofVectors (vs.map vectors.idxOf) ↔
      us.toFinset = vs.toFinset := by
  constructor
  · intro h
    ext name
    rw [List.mem_toFinset, List.mem_toFinset]
    rw [← mem_map_idxOf_iff hu, ← Blade.testBit_ofVectors, h, Blade.testBit_ofVectors,
      mem_map_idxOf_iff hv]
  · intro h
    have hmem : ∀ name, name ∈ us ↔ name ∈ vs := fun name => by
      rw [← List.mem_toFinset, h, List.mem_toFinset]
    refine Nat.eq_of_testBit_eq fun i => Bool.eq_iff_iff.mpr ?_
    rw [Blade.testBit_ofVectors, Blade.testBit_ofVectors, List.mem_map, List.mem_map]
    simp only [hmem]

end Vectors

/-- The counting argument: among the subsets of `s`, a list of as many sets as `s` has leaves none
    out exactly if it repeats none. -/
theorem nodup_and_length_iff {β : Type} [DecidableEq β] {s : Finset β} {sets : List (Finset β)}
    (h : ∀ t ∈ sets, t ⊆ s) : sets.Nodup ∧ sets.length = 2 ^ s.card ↔ ∀ t ⊆ s, sets.count t = 1 := by
  constructor
  · rintro ⟨hnodup, hlength⟩ t ht
    have hsub : sets.toFinset ⊆ s.powerset := fun u hu =>
      Finset.mem_powerset.mpr (h u (List.mem_toFinset.mp hu))
    have hall : sets.toFinset = s.powerset := by
      apply Finset.eq_of_subset_of_card_le hsub
      rw [Finset.card_powerset, List.toFinset_card_of_nodup hnodup, hlength]
    apply List.count_eq_one_of_mem hnodup
    rw [← List.mem_toFinset, hall]
    exact Finset.mem_powerset.mpr ht
  · intro hcount
    have hnodup : sets.Nodup := by
      rw [List.nodup_iff_count_le_one]
      intro t
      by_cases ht : t ∈ sets
      · exact (hcount t (h t ht)).le
      · rw [List.count_eq_zero_of_not_mem ht]
        exact Nat.zero_le 1
    have hall : sets.toFinset = s.powerset := by
      ext t
      rw [List.mem_toFinset, Finset.mem_powerset]
      exact ⟨h t, fun ht => List.count_pos_iff.mp (by rw [hcount t ht]; exact Nat.one_pos)⟩
    exact ⟨hnodup, by rw [← List.toFinset_card_of_nodup hnodup, hall, Finset.card_powerset]⟩

/-- To name every set once is to name as many as there are, and no blade twice. -/
theorem namesEverySet_iff {vectors : List String} {blades : List (List String)}
    (hdistinct : vectors.Nodup) : NamesEverySet vectors blades ↔
      blades.length = 2 ^ vectors.length ∧ (∀ names ∈ blades, names ⊆ vectors) ∧
        (∀ names ∈ blades, names.Nodup) ∧ (blades.map List.length).Pairwise (· ≤ ·) ∧
        ((blades.map (·.map vectors.idxOf)).map ofVectors).Nodup := by
  have hcount : (∀ names ∈ blades, names ⊆ vectors) →
      (((blades.map (·.map vectors.idxOf)).map ofVectors).Nodup ∧
          blades.length = 2 ^ vectors.length ↔
        ∀ s ⊆ vectors.toFinset, (blades.map List.toFinset).count s = 1) := by
    intro hsubset
    have hsets : ∀ s ∈ blades.map List.toFinset, s ⊆ vectors.toFinset := by
      intro s hs
      obtain ⟨names, hnames, rfl⟩ := List.mem_map.mp hs
      intro name hname
      exact List.mem_toFinset.mpr (hsubset names hnames (List.mem_toFinset.mp hname))
    have hblades : ∀ us ∈ blades, ∀ vs ∈ blades,
        (ofVectors ∘ (·.map vectors.idxOf)) us = (ofVectors ∘ (·.map vectors.idxOf)) vs ↔
          us.toFinset = vs.toFinset := fun us hus vs hvs =>
      ofVectors_map_idxOf_eq_iff (hsubset us hus) (hsubset vs hvs)
    rw [← nodup_and_length_iff hsets, List.toFinset_card_of_nodup hdistinct, List.length_map,
      List.map_map, nodup_map_congr hblades]
  constructor
  · rintro ⟨hnodup, hsubset, honce, hgraded⟩
    obtain ⟨hfresh, hlength⟩ := (hcount hsubset).mpr honce
    exact ⟨hlength, hsubset, hnodup, hgraded, hfresh⟩
  · rintro ⟨hlength, hsubset, hnodup, hgraded, hfresh⟩
    exact ⟨hnodup, hsubset, (hcount hsubset).mp ⟨hfresh, hlength⟩, hgraded⟩

/-- A list is resolved, in place, exactly if it has the length asked for and names every set of the
    vectors. -/
theorem resolveBlades_iff_namesEverySet {blades : List (List String)} {order : BasisOrder}
    (hdistinct : c.vectors.Nodup) :
    blades.length = 2 ^ c.dimension ∧ c.resolveBlades 0 [] blades = .ok order ↔
      NamesEverySet c.vectors blades ∧ order = blades.map (·.map c.vectors.idxOf) := by
  rw [resolveBlades_eq_ok_iff, namesEverySet_iff hdistinct, dimension]
  simp only [resolveBlade_eq_ok_iff_map, forall₂_and_map_iff]
  -- resolving keeps repetitions and lengths
  have hnodup : (∀ names ∈ blades, names ⊆ c.vectors) →
      ((∀ vs ∈ blades.map (·.map c.vectors.idxOf), vs.Nodup) ↔ ∀ names ∈ blades, names.Nodup) := by
    intro hsubset
    rw [List.forall_mem_map]
    exact forall₂_congr fun names hnames => nodup_map_idxOf_iff (hsubset names hnames)
  have hlengths : (blades.map (·.map c.vectors.idxOf)).map List.length = blades.map List.length := by
    simp
  constructor
  · rintro ⟨hlength, ⟨hsubset, rfl⟩, hvs, hgraded, hfresh, -⟩
    rw [hlengths] at hgraded
    exact ⟨⟨hlength, hsubset, (hnodup hsubset).mp hvs, hgraded.of_cons, hfresh⟩, rfl⟩
  · rintro ⟨⟨hlength, hsubset, hnames, hgraded, hfresh⟩, rfl⟩
    refine ⟨hlength, ⟨hsubset, rfl⟩, (hnodup hsubset).mpr hnames, ?_, hfresh, ?_⟩
    · rw [hlengths, List.pairwise_cons]
      exact ⟨fun k _ => Nat.zero_le k, hgraded⟩
    · exact fun _ _ => List.not_mem_nil

/-! ## Accepted descriptions -/

theorem validate_eq_ok_iff_names : c.validate = .ok () ↔
    1 ≤ c.vectors.length ∧ c.vectors.length ≤ 12 ∧ (∀ name ∈ c.vectors, IsName name) ∧
      c.vectors.Nodup ∧ ∀ m, c.metric = some m → m.length = c.vectors.length := by
  rw [validate_eq_ok_iff, checkNames_eq_ok_iff, Nat.one_le_iff_ne_zero]
  simp only [isIdentifier_eq_true_iff, List.not_mem_nil, not_false_eq_true, implies_true, and_true,
    dimension, maxDimension, and_assoc]

/-- The accepted descriptions have a basis order: the listed one, or the standard one. -/
theorem basisOrder_eq_ok_iff_accepted {order : BasisOrder} : c.basisOrder = .ok order ↔
    c.Accepted ∧ match c.blades with
      | none => order = .standard c.dimension
      | some blades => order = blades.map (·.map c.vectors.idxOf) := by
  rw [basisOrder_eq_ok_iff, validate_eq_ok_iff_names]
  cases hblades : c.blades with
  | none =>
    constructor
    · rintro ⟨⟨hpos, hle, hnames, hdistinct, hmetric⟩, horder⟩
      exact ⟨⟨hpos, hle, hnames, hdistinct, hmetric, by simp [hblades]⟩, horder⟩
    · rintro ⟨⟨hpos, hle, hnames, hdistinct, hmetric, -⟩, horder⟩
      exact ⟨⟨hpos, hle, hnames, hdistinct, hmetric⟩, horder⟩
  | some blades =>
    constructor
    · rintro ⟨⟨hpos, hle, hnames, hdistinct, hmetric⟩, hresolved⟩
      obtain ⟨hevery, horder⟩ := (resolveBlades_iff_namesEverySet hdistinct).mp hresolved
      exact ⟨⟨hpos, hle, hnames, hdistinct, hmetric, fun _ h =>
        Option.some.inj (hblades.symm.trans h) ▸ hevery⟩, horder⟩
    · rintro ⟨⟨hpos, hle, hnames, hdistinct, hmetric, hevery⟩, horder⟩
      exact ⟨⟨hpos, hle, hnames, hdistinct, hmetric⟩,
        (resolveBlades_iff_namesEverySet hdistinct).mpr ⟨hevery blades hblades, horder⟩⟩

/-! ## Faults -/

/-- What fails here fails by a fault of the algebra. -/
def FailsByFault {β : Type} (r : Except Error β) : Prop :=
  ∀ e, r = .error e → ∃ fault, e = .invalidAlgebra fault

section Faults

variable {β γ : Type}

theorem failsByFault_ok (b : β) : FailsByFault (.ok b) := fun _ h => nomatch h

theorem failsByFault_error (fault : AlgebraFault) :
    FailsByFault (.error (.invalidAlgebra fault) : Except Error β) :=
  fun _ h => ⟨fault, (Except.error.inj h).symm⟩

theorem FailsByFault.bind {x : Except Error β} {f : β → Except Error γ} (hx : FailsByFault x)
    (hf : ∀ b, FailsByFault (f b)) : FailsByFault (x >>= f) := by
  cases x with
  | error e => exact fun _ h => hx _ (congrArg Except.error (Except.error.inj h))
  | ok b => exact hf b

/-- A check in front of the rest. -/
theorem FailsByFault.check {p : Prop} [Decidable p] {fault : AlgebraFault}
    {r : Unit → Except Error γ} (hr : FailsByFault (r ())) :
    FailsByFault (if p then throw (.invalidAlgebra fault) >>= r else r ()) := by
  by_cases hp : p
  · rw [if_pos hp]
    exact failsByFault_error fault
  · rw [if_neg hp]
    exact hr

end Faults

theorem failsByFault_checkNames (algebra : String) (earlier names : List String) :
    FailsByFault (checkNames algebra earlier names) := by
  induction names generalizing earlier with
  | nil => exact failsByFault_ok _
  | cons name names ih =>
    rw [checkNames]
    split
    · exact failsByFault_error _
    · split
      · exact failsByFault_error _
      · exact ih _

theorem failsByFault_checkMetric : FailsByFault c.checkMetric := by
  unfold checkMetric
  split
  · exact failsByFault_ok _
  · split
    · exact failsByFault_ok _
    · exact failsByFault_error _

theorem failsByFault_validate : FailsByFault c.validate := by
  have hchecks : FailsByFault (checkNames c.name [] c.vectors >>= fun _ => c.checkMetric) :=
    (failsByFault_checkNames _ _ _).bind fun _ => failsByFault_checkMetric
  rw [validate]
  exact .check hchecks

theorem failsByFault_resolveBlade (names : List String) : FailsByFault (c.resolveBlade names) := by
  unfold resolveBlade
  induction names with
  | nil => exact failsByFault_ok _
  | cons name names ih =>
    rw [List.mapM_cons]
    refine .bind ?_ fun i => ih.bind fun is => failsByFault_ok _
    cases c.vectorIndex? name with
    | none => exact failsByFault_error _
    | some i => exact failsByFault_ok _

theorem failsByFault_resolveBlades (grade : Nat) (seen : List Blade) (blades : List (List String)) :
    FailsByFault (c.resolveBlades grade seen blades) := by
  induction blades generalizing grade seen with
  | nil => exact failsByFault_ok _
  | cons names rest ih =>
    rw [resolveBlades]
    refine (failsByFault_resolveBlade names).bind fun vs => ?_
    cases Blade.wedge? vs with
    | none => exact failsByFault_error _
    | some w => exact .check (.check ((ih _ _).bind fun tail => failsByFault_ok _))

theorem failsByFault_basisOrder : FailsByFault c.basisOrder := by
  refine failsByFault_validate.bind fun _ => ?_
  cases c.blades with
  | none => exact failsByFault_ok _
  | some blades => exact .check (failsByFault_resolveBlades _ _ _)

end Config

/-! ## Accepted algebras -/

/-- For every description: it defines an algebra exactly if it has one to twelve vectors with
    different names, a metric that fits and a blade list that names every set of vectors once, where
    it has them; otherwise it fails by a fault of the algebra.  A declared list is the basis order,
    each name replaced by its index. -/
theorem Clifford.acceptance_of_config {α : Type} [Scalar α] (c : Config α) :
    ((∃ A, ofConfig c = .ok A) ↔ c.Accepted) ∧
      (¬ c.Accepted → ∃ fault, ofConfig c = .error (.invalidAlgebra fault)) ∧
      ∀ A blades, ofConfig c = .ok A → c.blades = some blades →
        c.basisOrder = .ok (blades.map (·.map c.vectors.idxOf)) := by
  have haccepted : (∃ A, ofConfig c = .ok A) ↔ c.Accepted := by
    simp only [ofConfig_eq_ok_iff, Config.basisOrder_eq_ok_iff_accepted]
    constructor
    · rintro ⟨_, _, ⟨h, -⟩, -⟩
      exact h
    · intro h
      cases hblades : c.blades with
      | none => exact ⟨_, _, ⟨h, rfl⟩, rfl⟩
      | some blades => exact ⟨_, _, ⟨h, rfl⟩, rfl⟩
  refine ⟨haccepted, fun hnot => ?_, fun A blades h hblades => ?_⟩
  · cases hresult : ofConfig c with
    | ok A => exact absurd (haccepted.mp ⟨A, hresult⟩) hnot
    | error e =>
      have hfails : Config.FailsByFault (ofConfig c) :=
        Config.failsByFault_basisOrder.bind fun _ => Config.failsByFault_ok _
      obtain ⟨fault, rfl⟩ := hfails e hresult
      exact ⟨fault, rfl⟩
  · rw [Config.basisOrder_eq_ok_iff_accepted, hblades]
    exact ⟨haccepted.mp ⟨A, h⟩, rfl⟩

/-- A plane with a declared blade list. -/
def Config.listedPlane (blades : List (List String)) : Config Float where
  name := "plane"
  vectors := ["x", "y_2"]
  metric := some [1, -1]
  blades := some blades

/-- A list that turns the plane, and a list that names a vector twice. -/
theorem Clifford.acceptance_listedPlane :
    let turned := Config.listedPlane [[], ["y_2"], ["x"], ["y_2", "x"]]
    let repeated := Config.listedPlane [[], ["x"], ["y_2"], ["x", "x"]]
    (∃ A, ofConfig turned = .ok A) ∧ turned.Accepted ∧
      turned.basisOrder = .ok [[], [1], [0], [1, 0]] ∧
      ¬ repeated.Accepted ∧ ∃ fault, ofConfig repeated = .error (.invalidAlgebra fault) := by
  intro turned repeated
  obtain ⟨hturned, -, horder⟩ := acceptance_of_config turned
  obtain ⟨-, hrepeated, -⟩ := acceptance_of_config repeated
  obtain ⟨A, hA⟩ : ∃ A, ofConfig turned = .ok A :=
    ⟨_, ofConfig_eq_ok_iff.mpr ⟨[[], [1], [0], [1, 0]], by decide +kernel, rfl⟩⟩
  have hnot : ¬ repeated.Accepted := fun h =>
    absurd ((h.blades _ rfl).nodup ["x", "x"] (by decide)) (by decide)
  exact ⟨⟨A, hA⟩, hturned.mp ⟨A, hA⟩, horder A _ hA rfl, hnot, hrepeated hnot⟩

end GeometricAlgebra
