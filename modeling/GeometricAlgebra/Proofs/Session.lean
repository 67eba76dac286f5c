/-
  GeometricAlgebra.Proofs.Session

  Sessions: sequences of calls that make multivectors of one algebra, each from data and from
  multivectors made before.  A call that is refused makes nothing.

    * `Session.step`, `Session.run`: one call, and a sequence of calls.
    * `Session.wellFormed_step`: a call in the domain of the algebra keeps every multivector
      well formed.
    * `Session.wellFormed_run`: so does every sequence of calls; and what is well formed is read
      and written within bounds.
-/

import GeometricAlgebra.Proofs.Multivector.InRange
import GeometricAlgebra.Proofs.Multivector.WellFormed

namespace GeometricAlgebra

/-- Scalars with all functions that the library calls. -/
class CompleteScalar (α : Type) extends Elementary α, Numeral α

instance : CompleteScalar Float where

/-! ## Calls -/

/-- Calls without an operand. -/
inductive Maker (α : Type) where
  | zero
  | scalar (value : α)
  | ofCoords (grades : GradeSet) (coords : Coordinates α)
  | ofDense (dense : Coordinates α)
  | basisVector (i : Nat)
  | vector (components : Coordinates α)
  | compress (dense : Coordinates α) (eps : α) (mask : GradeSet)
  | parse (text : String)

/-- Calls with one operand. -/
inductive Unary (α : Type) where
  | setCoordinate (b : Blade) (value : α)
  | reserve (g : Nat)
  | overwrite (i : Nat) (value : α)
  | negate
  | reverse
  | gradeInvolution
  | cliffordConjugate
  | increment
  | decrement
  | scaleAndAdd (factor offset : α)
  | scale (s : α)
  | extract (mask : GradeSet)
  | dual
  | undual
  | unit
  | versorInverse
  | exp (order : Nat)
  | sinh (order : Nat)
  | cosh (order : Nat)
  | sin (order : Nat)
  | cos (order : Nat)
  | log
  | applyOutermorphism (f : Outermorphism α)

/-- Calls with two operands. -/
inductive Binary where
  | product (kind : ProductKind)
  | add
  | subtract
  | hadamard
  | hadamardQuotient
  | igp
  | applyVersor
  | applyUnitVersor

/-- A call; operands are given by their place among the multivectors made so far. -/
inductive Call (α : Type) where
  | make (m : Maker α)
  | unary (u : Unary α) (x : Nat)
  | binary (b : Binary) (x y : Nat)
  -- The sandwich product with a given inverse.
  | applyVersorWith (v x w : Nat)
  | randomBlade (r : Random.Request α)
  | randomVersor (r : Random.Request α)

variable {α σ : Type} [CompleteScalar α] (A : Clifford α)

/-- The multivector that a call without an operand makes, if it is not refused. -/
def Maker.result? : Maker α → Option (Multivector α)
  | zero => some .zero
  | scalar value => some (.scalar value)
  | ofCoords grades coords => (A.ofCoords grades coords).toOption
  | ofDense dense => (A.ofDense dense).toOption
  | basisVector i => some (A.basisVector i)
  | vector components => some (A.vector components)
  | compress dense eps mask => some (A.compress dense eps mask)
  | parse text => (A.parse text).toOption

/-- The multivector that a call with one operand makes, if it is not refused. -/
def Unary.result? (x : Multivector α) : Unary α → Option (Multivector α)
  | setCoordinate b value => some (A.setCoordinate x b value)
  | reserve g => some (A.reserve x g)
  | overwrite i value => some (x.overwrite i value)
  | negate => some x.negate
  | reverse => some (A.reverse x)
  | gradeInvolution => some (A.gradeInvolution x)
  | cliffordConjugate => some (A.cliffordConjugate x)
  | increment => some (A.increment x)
  | decrement => some (A.decrement x)
  | scaleAndAdd factor offset => some (A.scaleAndAdd x factor offset)
  | scale s => some (A.scale x s)
  | extract mask => some (A.extract x mask)
  | dual => some (A.dual x)
  | undual => some (A.undual x)
  | unit => some (A.unit x)
  | versorInverse => some (A.versorInverse x)
  | exp order => some (A.exp x order)
  | sinh order => some (A.sinh x order)
  | cosh order => some (A.cosh x order)
  | sin order => some (A.sin x order)
  | cos order => some (A.cos x order)
  | log => (A.log x).toOption
  | applyOutermorphism f => some (A.applyOutermorphism f x)

/-- The multivector that a call with two operands makes. -/
def Binary.result (x y : Multivector α) : Binary → Multivector α
  | product kind => A.product kind x y
  | add => A.add x y
  | subtract => A.subtract x y
  | hadamard => A.hadamard x y
  | hadamardQuotient => A.hadamardQuotient x y
  | igp => A.igp x y
  | applyVersor => A.applyVersor x y
  | applyUnitVersor => A.applyUnitVersor x y

/-! ## Sessions -/

/-- The multivectors made so far, in order, and the state of the source of random words. -/
structure Session (α σ : Type) where
  made : List (Multivector α)
  words : σ

namespace Session

/-- Adds the result of a call, if there is one. -/
def record (s : Session α σ) (r : Option (Multivector α)) : Session α σ :=
  { s with made := s.made ++ r.toList }

/-- One call.  A call whose operand was never made is refused. -/
def step (next : WordSource σ) (s : Session α σ) : Call α → Session α σ
  | .make m => s.record (m.result? A)
  | .unary u x => s.record (s.made[x]?.bind fun x => u.result? A x)
  | .binary b x y => s.record (s.made[x]?.bind fun x => s.made[y]?.map fun y => b.result A x y)
  | .applyVersorWith v x w =>
    s.record (s.made[v]?.bind fun v => s.made[x]?.bind fun x =>
      s.made[w]?.map fun w => A.applyVersorWith v x w)
  | .randomBlade r =>
    let (x, words) := A.randomBlade next r s.words
    record { s with words } x.toOption
  | .randomVersor r =>
    let (x, words) := A.randomVersor next r s.words
    record { s with words } x.toOption

/-- The calls one after the other. -/
def run (next : WordSource σ) (s : Session α σ) (calls : List (Call α)) : Session α σ :=
  calls.foldl (step A next) s

/-- Every multivector made so far is well formed. -/
def WellFormed (s : Session α σ) : Prop := ∀ x ∈ s.made, x.WellFormed A

end Session

/-! ## The domain of a call -/

/-- Basis vectors are those of the algebra, and a buffer to be compressed holds all its blades. -/
def Maker.InDomain : Maker α → Prop
  | basisVector i => i < A.dimension
  | compress dense _ _ => A.table.denseSize ≤ dense.size
  | _ => True

/-- Blades and grades are those of the algebra. -/
def Unary.InDomain : Unary α → Prop
  | setCoordinate b _ => b < 2 ^ A.dimension
  | reserve g => g ≤ A.dimension
  | _ => True

/-- What a call names belongs to the algebra. -/
def Call.InDomain : Call α → Prop
  | make m => m.InDomain A
  | unary u _ => u.InDomain A
  | _ => True

/-! ## Every call keeps multivectors well formed -/

section Step

variable {A} {x y : Multivector α}

theorem Maker.wellFormed_result {c : Config α} (h : Clifford.ofConfig c = .ok A) {m : Maker α}
    (hm : m.InDomain A) (hx : m.result? A = some x) : x.WellFormed A := by
  have hT := Clifford.lawful_of_ofConfig h
  cases m with
  | ofCoords grades coords => exact Clifford.wellFormed_ofCoords (toOption_eq_some_iff.mp hx)
  | ofDense dense => exact Clifford.wellFormed_ofDense hT (toOption_eq_some_iff.mp hx)
  | parse text =>
    rw [result?] at hx
    cases hparse : A.parse text with
    | error e => simp [hparse, Except.toOption] at hx
    | ok y =>
      rw [hparse] at hx
      exact Option.some.inj hx ▸ Clifford.wellFormed_parse hT hparse
  | zero => exact Option.some.inj hx ▸ Multivector.wellFormed_zero
  | scalar value => exact Option.some.inj hx ▸ Multivector.wellFormed_scalar hT value
  | basisVector i => exact Option.some.inj hx ▸ Clifford.wellFormed_basisVector hm
  | vector components =>
    exact Option.some.inj hx ▸
      Clifford.wellFormed_vector hT (Clifford.dimension_pos_of_ofConfig h) components
  | compress dense eps mask =>
    exact Option.some.inj hx ▸ Clifford.wellFormed_compress hT hm eps mask

theorem Unary.wellFormed_result (hT : A.table.Lawful) {u : Unary α} (hu : u.InDomain A)
    (hx : x.WellFormed A) (hy : u.result? A x = some y) : y.WellFormed A := by
  cases u with
  -- only the logarithm may be refused
  | log => exact Clifford.wellFormed_log hT hx (toOption_eq_some_iff.mp hy)
  | setCoordinate b value =>
    exact Option.some.inj hy ▸ Clifford.wellFormed_setCoordinate hx hu value
  | reserve g => exact Option.some.inj hy ▸ Clifford.wellFormed_reserve hx hu
  | overwrite i value => exact Option.some.inj hy ▸ hx.overwrite i value
  | negate => exact Option.some.inj hy ▸ hx.map _
  | reverse => exact Option.some.inj hy ▸ Clifford.wellFormed_signGrades hx _
  | gradeInvolution => exact Option.some.inj hy ▸ Clifford.wellFormed_signGrades hx _
  | cliffordConjugate => exact Option.some.inj hy ▸ Clifford.wellFormed_signGrades hx _
  | increment => exact Option.some.inj hy ▸ Clifford.wellFormed_increment hT hx
  | decrement => exact Option.some.inj hy ▸ Clifford.wellFormed_decrement hT hx
  | scaleAndAdd factor offset =>
    exact Option.some.inj hy ▸ Clifford.wellFormed_scaleAndAdd hx factor offset
  | scale s => exact Option.some.inj hy ▸ Clifford.wellFormed_scale hT hx s
  | extract mask => exact Option.some.inj hy ▸ Clifford.wellFormed_extract hx mask
  | dual => exact Option.some.inj hy ▸ Clifford.wellFormed_permute hT _ x
  | undual => exact Option.some.inj hy ▸ Clifford.wellFormed_permute hT _ x
  | unit => exact Option.some.inj hy ▸ hx.map _
  | versorInverse => exact Option.some.inj hy ▸ Clifford.wellFormed_versorInverse hx
  | exp order => exact Option.some.inj hy ▸ Clifford.wellFormed_exp hT hx order
  | sinh order => exact Option.some.inj hy ▸ Clifford.wellFormed_sinh hT hx order
  | cosh order => exact Option.some.inj hy ▸ Clifford.wellFormed_cosh hT hx order
  | sin order => exact Option.some.inj hy ▸ Clifford.wellFormed_sin hT hx order
  | cos order => exact Option.some.inj hy ▸ Clifford.wellFormed_cos hT x order
  | applyOutermorphism f => exact Option.some.inj hy ▸ Clifford.wellFormed_applyOutermorphism hx f

theorem Binary.wellFormed_result (hT : A.table.Lawful) (b : Binary) (hx : x.WellFormed A)
    (hy : y.WellFormed A) : (b.result A x y).WellFormed A := by
  cases b with
  | product kind => exact Clifford.wellFormed_product hT kind x y
  | add => exact Clifford.wellFormed_add hx hy
  | subtract => exact Clifford.wellFormed_subtract hx hy
  | hadamard => exact Clifford.wellFormed_hadamard hx hy
  | hadamardQuotient => exact Clifford.wellFormed_hadamardQuotient hx hy
  | igp => exact Clifford.wellFormed_product hT .geometric x _
  | applyVersor => exact Clifford.wellFormed_applyVersorWith hT x y _
  | applyUnitVersor => exact Clifford.wellFormed_applyVersorWith hT x y _

namespace Session

variable {next : WordSource σ} {s : Session α σ}

omit [CompleteScalar α] in
theorem wellFormed_record (hs : s.WellFormed A) {r : Option (Multivector α)}
    (hr : ∀ x, r = some x → x.WellFormed A) : (s.record r).WellFormed A := by
  intro x hx
  rcases List.mem_append.mp hx with hx | hx
  · exact hs x hx
  · exact hr x (Option.mem_toList.mp hx)

omit [CompleteScalar α] in
theorem WellFormed.of_getElem? (hs : s.WellFormed A) {i : Nat} (hx : s.made[i]? = some x) :
    x.WellFormed A :=
  hs x (List.mem_of_getElem? hx)

/-- A call in the domain of the algebra keeps every multivector well formed. -/
theorem wellFormed_step {c : Config α} (h : Clifford.ofConfig c = .ok A) {call : Call α}
    (hcall : call.InDomain A) (hs : s.WellFormed A) : (s.step A next call).WellFormed A := by
  have hT := Clifford.lawful_of_ofConfig h
  cases call with
  | make m => exact wellFormed_record hs fun x hx => Maker.wellFormed_result h hcall hx
  | unary u i =>
    refine wellFormed_record hs fun y hy => ?_
    obtain ⟨x, hx, hy⟩ := Option.bind_eq_some_iff.mp hy
    exact Unary.wellFormed_result hT hcall (hs.of_getElem? hx) hy
  | binary b i j =>
    refine wellFormed_record hs fun z hz => ?_
    obtain ⟨x, hx, hz⟩ := Option.bind_eq_some_iff.mp hz
    obtain ⟨y, hy, rfl⟩ := Option.map_eq_some_iff.mp hz
    exact b.wellFormed_result hT (hs.of_getElem? hx) (hs.of_getElem? hy)
  | applyVersorWith i j k =>
    refine wellFormed_record hs fun z hz => ?_
    obtain ⟨v, hv, hz⟩ := Option.bind_eq_some_iff.mp hz
    obtain ⟨x, hx, hz⟩ := Option.bind_eq_some_iff.mp hz
    obtain ⟨w, hw, rfl⟩ := Option.map_eq_some_iff.mp hz
    exact Clifford.wellFormed_applyVersorWith hT v x w
  | randomBlade r =>
    refine wellFormed_record hs fun x hx => ?_
    exact Clifford.wellFormed_randomBlade hT (Prod.ext (toOption_eq_some_iff.mp hx) rfl)
  | randomVersor r =>
    refine wellFormed_record hs fun x hx => ?_
    exact Clifford.wellFormed_randomVersor hT (Prod.ext (toOption_eq_some_iff.mp hx) rfl)

/-- Every multivector of a run is well formed. -/
theorem wellFormed_foldl {c : Config α} (h : Clifford.ofConfig c = .ok A) {calls : List (Call α)}
    (hcalls : ∀ call ∈ calls, call.InDomain A) (hs : s.WellFormed A) :
    (s.run A next calls).WellFormed A := by
  induction calls generalizing s with
  | nil => exact hs
  | cons call calls ih =>
    -- the rest of the run starts from the session after the first call
    rw [List.forall_mem_cons] at hcalls
    exact ih hcalls.2 (wellFormed_step h hcalls.1 hs)

/-- In an accepted algebra, every sequence of calls makes well-formed multivectors only, from
    whatever well-formed multivectors and random words it starts; and every well-formed
    multivector is read and written within bounds. -/
theorem wellFormed_run {c : Config α} (h : Clifford.ofConfig c = .ok A) {calls : List (Call α)}
    (hcalls : ∀ call ∈ calls, call.InDomain A) (next : WordSource σ) (hs : s.WellFormed A) :
    (∀ x ∈ (s.run A next calls).made, x.WellFormed A) ∧
      ∀ x : Multivector α, x.WellFormed A → A.InRange x :=
  ⟨wellFormed_foldl h hcalls hs, fun _ hx => Clifford.inRange_of_wellFormed h hx⟩

/-- A session in space that makes two vectors, their product, a changed copy of it and its
    exponential. -/
theorem wellFormed_run_e3ga : ∃ A : Clifford Float, Clifford.ofConfig Config.e3ga = .ok A ∧
    let s := run A WordSource.splitmix ⟨[], 1⟩ [.make (.basisVector 0), .make (.vector #[1, 2]),
      .binary (.product .geometric) 0 1, .unary (.setCoordinate 5 3) 2, .unary (.exp 8) 3]
    s.made.length = 5 ∧ ∀ x ∈ s.made, x.WellFormed A := by
  have horder : (Config.e3ga : Config Float).basisOrder =
      .ok [[], [0], [1], [2], [0, 1], [1, 2], [2, 0], [0, 1, 2]] := by decide +kernel
  have hA := Clifford.ofConfig_eq_ok_iff.mpr ⟨_, horder, rfl⟩
  refine ⟨_, hA, rfl, (wellFormed_run hA ?_ _ ?_).1⟩
  · simp only [List.forall_mem_cons, Call.InDomain, Maker.InDomain, Unary.InDomain,
      List.not_mem_nil, false_implies, implies_true, and_true, true_and]
    decide
  · exact fun x hx => absurd hx List.not_mem_nil

end Session

end Step

end GeometricAlgebra
