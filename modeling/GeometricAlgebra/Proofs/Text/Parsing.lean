/-
  GeometricAlgebra.Proofs.Text.Parsing

  What the parser computes.  It accepts the texts whose tokens before the end are a sum, and a sum
  denotes the dense buffer that holds, for each blade, its summands on that blade.

    * `Clifford.summandValue`: the value of a summand, against the stored orientation of its blade.
    * `Clifford.denseSum`: the buffer that a sum denotes.
    * `Clifford.foldl_addTerm`: adding the terms one by one fills that buffer.
    * `Clifford.parse_of_ofConfig`: the parser against the grammar.
-/

import GeometricAlgebra.Proofs.Numbering
import GeometricAlgebra.Proofs.Multivector.WellFormed
import GeometricAlgebra.Proofs.Text.Grammar
import GeometricAlgebra.Proofs.Text.Lexing

namespace GeometricAlgebra

/-- The sign of the permutation that sorts a list. -/
noncomputable def Sign.ofSorting (vs : List Nat) : Sign :=
  if Equiv.Perm.sign (Tuple.sort vs.get) = 1 then .plus else .minus

/-- Without repetitions, it is the parity of the inversions. -/
theorem Sign.ofSorting_eq {vs : List Nat} (h : vs.Nodup) :
    ofSorting vs = .ofSwaps (Blade.inversions vs) := by
  rw [ofSorting, Blade.sign_sort h, ← Sign.toUnits_ofSwaps]
  cases ofSwaps (Blade.inversions vs) with
  | plus => exact if_pos rfl
  | minus => exact if_neg (by decide)

namespace Text

variable {α : Type}

/-- The vectors of a body stand in its tokens. -/
theorem Body.mem_tokens {body : Body α} {v : Nat} (hv : v ∈ body.vectors) :
    .vector v ∈ body.tokens := by
  have hblade : ∀ u us, v ∈ u :: us → (.vector v : Token α) ∈ .vector u :: wedgeTokens us := by
    intro u us hmem
    rcases List.mem_cons.mp hmem with rfl | hmem
    · exact List.mem_cons_self
    · have hwedge : (.vector v : Token α) ∈ wedgeTokens us :=
        List.mem_flatMap.mpr ⟨v, hmem, List.mem_cons_of_mem _ List.mem_cons_self⟩
      exact List.mem_cons_of_mem _ hwedge
  cases body with
  | number x => exact absurd hv List.not_mem_nil
  | scaled x caret u us =>
    exact List.mem_cons_of_mem _ (List.mem_cons_of_mem _ (hblade u us hv))
  | blade u us => exact hblade u us hv

/-- The vectors of a sum stand in its text. -/
theorem mem_sumTokens {ws : List (Summand α)} {w : Summand α} (hw : w ∈ ws) {v : Nat}
    (hv : v ∈ w.body.vectors) : .vector v ∈ sumTokens ws :=
  List.mem_flatMap.mpr ⟨w, hw, List.mem_append_right _ (Body.mem_tokens hv)⟩

/-- The blade of a summand. -/
def Summand.blade (w : Summand α) : Blade := .ofVectors w.body.vectors

end Text

namespace Clifford

open Text

variable {α : Type}

section Sum

variable [Scalar α] (A : Clifford α)

/-- The value of a summand against the stored orientation of its blade: its number, or one, with
    the signs before it and the sign that sorts its vectors; zero when a vector repeats. -/
noncomputable def summandValue (w : Summand α) : α :=
  if w.body.vectors.Nodup then
    (w.sign * .ofSorting w.body.vectors).toScalar * w.body.number?.getD 1 /
      (A.table.signOf w.blade).toScalar
  else 0

/-- The sum of the summands on a blade, from the left and from zero. -/
noncomputable def sumOn (ws : List (Summand α)) (b : Blade) : α :=
  (ws.filter (·.blade = b)).foldl (fun sum w => sum + A.summandValue w) 0

/-- The dense buffer of a sum. -/
noncomputable def denseSum (ws : List (Summand α)) : Coordinates α :=
  .ofFn fun i : Fin A.table.denseSize => A.sumOn ws (A.table.blade i)

theorem termCoordinate_term (w : Summand α) : A.termCoordinate w.term = A.summandValue w := by
  rw [termCoordinate, summandValue, Summand.term, Blade.wedge?_eq]
  by_cases hvs : w.body.vectors.Nodup
  · simp only [if_pos hvs, Sign.ofSorting_eq hvs]
    rfl
  · simp only [if_neg hvs]

variable {A}

/-- A term is added at the blade of its vectors. -/
theorem getD_addTerm (hT : A.table.Lawful) {w : Summand α}
    (hw : ∀ v ∈ w.body.vectors, v < A.table.dimension) {dense : Coordinates α}
    (hsize : dense.size = A.table.denseSize) {i : Nat} (hi : i < A.table.denseSize) :
    (A.addTerm dense w.term).getD i 0 =
      if w.blade = A.table.blade i then dense.getD i 0 + A.summandValue w else dense.getD i 0 := by
  have hdense : A.table.denseSize = 2 ^ A.table.dimension := hT.denseSize_eq
  have hplace : A.table.index w.blade = i ↔ w.blade = A.table.blade i := by
    constructor
    · rintro rfl
      exact (hT.blade_index _ (Blade.ofVectors_lt hw)).symm
    · intro h
      rw [h, hT.index_blade i (hdense ▸ hi)]
  have hmodify : A.addTerm dense w.term =
      dense.modify (A.table.index w.blade) (· + A.summandValue w) := by
    rw [← A.termCoordinate_term w]
    rfl
  have hget : i < dense.size := hsize ▸ hi
  rw [hmodify]
  by_cases h : A.table.index w.blade = i
  · rw [if_pos (hplace.mp h)]
    simp [Array.getD_eq_getD_getElem?, Array.getElem_modify, h, hget]
  · rw [if_neg (fun hb => h (hplace.mpr hb))]
    simp [Array.getD_eq_getD_getElem?, Array.getElem_modify, h, hget]

/-- Each place collects the summands on its blade. -/
theorem getD_foldl_addTerm (hT : A.table.Lawful) {ws : List (Summand α)}
    (hws : ∀ w ∈ ws, ∀ v ∈ w.body.vectors, v < A.table.dimension) {dense : Coordinates α}
    (hsize : dense.size = A.table.denseSize) {i : Nat} (hi : i < A.table.denseSize) :
    ((ws.map Summand.term).foldl A.addTerm dense).getD i 0 =
      (ws.filter (·.blade = A.table.blade i)).foldl (fun sum w => sum + A.summandValue w)
        (dense.getD i 0) := by
  induction ws generalizing dense with
  | nil => rfl
  | cons w ws ih =>
    obtain ⟨hw, hws⟩ := List.forall_mem_cons.mp hws
    have hstep := getD_addTerm hT hw hsize hi
    rw [List.map_cons, List.foldl_cons, ih hws ((size_addTerm ..).trans hsize), hstep]
    by_cases hb : w.blade = A.table.blade i
    · rw [if_pos hb, List.filter_cons_of_pos (by simpa using hb), List.foldl_cons]
    · rw [if_neg hb, List.filter_cons_of_neg (by simpa using hb)]

/-- Adding the terms of a sum one by one fills the buffer that it denotes. -/
theorem foldl_addTerm (hT : A.table.Lawful) {ws : List (Summand α)}
    (hws : ∀ w ∈ ws, ∀ v ∈ w.body.vectors, v < A.table.dimension) :
    (ws.map Summand.term).foldl A.addTerm A.denseZeros = A.denseSum ws := by
  have hzeros : A.denseZeros.size = A.table.denseSize := Array.size_replicate
  have hsize := Coordinates.size_foldl A.size_addTerm (ws.map Summand.term) A.denseZeros
  apply Array.ext
  · rw [hsize, hzeros, denseSum, Array.size_ofFn]
  · intro i hi _
    have hi' : i < A.table.denseSize := by rwa [hsize, hzeros] at hi
    have hentry := getD_foldl_addTerm hT hws hzeros hi'
    rw [denseZeros, Coordinates.getD_zeros] at hentry
    rw [Array.getElem_eq_getD 0]
    simp only [denseSum, Array.getElem_ofFn]
    exact hentry

end Sum

section Parse

variable [Numeral α] {c : Config α} {A : Clifford α}

/-- The vectors of a text are vectors of the algebra. -/
theorem lt_dimension_of_mem_tokens (h : ofConfig c = .ok A) {text : String} {v : Nat}
    (hv : (.vector v : Token α) ∈ tokens A.config.vectors text) : v < A.table.dimension := by
  have hlexed : v < A.config.vectors.length := lexed_of_mem_tokens A.config.vectors text hv
  rwa [length_vectors_of_ofConfig h] at hlexed

/-- The parser accepts the texts of sums, and returns the buffer that the sum denotes, without its
    zero groups. -/
theorem parseNamed_eq_ok_iff (h : ofConfig c = .ok A) (text source : String) (x : Multivector α) :
    A.parseNamed text source = .ok x ↔ ∃ ws, IsSum ws ∧
      tokens A.config.vectors text = sumTokens ws ∧
      x = A.compress (A.denseSum ws) 0 A.table.fullSet := by
  have hread : ∀ terms : List (Term α),
      readTerms source .start (lexemes A.config.vectors text) = .ok terms ↔
        ∃ ws, IsSum ws ∧ tokens A.config.vectors text = sumTokens ws ∧
          terms = ws.map Summand.term := by
    intro terms
    rw [← run_start_eq_some_iff (stop_notMem_tokens A.config.vectors text),
      ← map_token_lexemes, ← toOption_readTerms source, toOption_eq_some_iff]
  have hvalue : ∀ ws : List (Summand α), tokens A.config.vectors text = sumTokens ws →
      A.evaluate (ws.map Summand.term) = A.compress (A.denseSum ws) 0 A.table.fullSet := by
    intro ws hws
    rw [evaluate, foldl_addTerm (lawful_of_ofConfig h)]
    intro w hw v hv
    exact lt_dimension_of_mem_tokens h (hws ▸ mem_sumTokens hw hv)
  rw [parseNamed, bind_eq_ok_iff]
  constructor
  · rintro ⟨terms, hterms, hx⟩
    obtain ⟨ws, hsum, hws, rfl⟩ := (hread terms).mp hterms
    exact ⟨ws, hsum, hws, (Except.ok.inj hx).symm.trans (hvalue ws hws)⟩
  · rintro ⟨ws, hsum, hws, rfl⟩
    exact ⟨_, (hread _).mpr ⟨ws, hsum, hws, rfl⟩, congrArg Except.ok (hvalue ws hws)⟩

/-- The parser accepts the texts of sums and returns what they denote.  It ends, for each token
    before the end takes a byte; and the blades of a text have their places in the tables. -/
theorem parse_of_ofConfig (h : ofConfig c = .ok A) (text : String) :
    (∀ x, A.parse text = .ok x ↔ ∃ ws, IsSum ws ∧
      tokens A.config.vectors text = sumTokens ws ∧
      x = A.compress (A.denseSum ws) 0 A.table.fullSet) ∧
    (lexemes A.config.vectors text : List (Lexeme α)).length ≤ (bytes text).length + 1 ∧
    ∀ vs : List Nat, (∀ v ∈ vs, (.vector v : Token α) ∈ tokens A.config.vectors text) →
      Blade.ofVectors vs < A.table.indices.size ∧
      A.table.index (.ofVectors vs) < A.table.signs.size ∧
      A.table.index (.ofVectors vs) < A.denseZeros.size := by
  have hT := lawful_of_ofConfig h
  refine ⟨parseNamed_eq_ok_iff h text "string", length_lexemes_le A.config.vectors text, ?_⟩
  intro vs hvs
  have hblade : Blade.ofVectors vs < 2 ^ A.table.dimension :=
    Blade.ofVectors_lt fun v hv => lt_dimension_of_mem_tokens h (hvs v hv)
  have hplace := hT.index_lt _ hblade
  refine ⟨hT.size_indices ▸ hblade, hT.size_signs ▸ hplace, ?_⟩
  rw [size_denseZeros, hT.denseSize_eq]
  exact hplace

end Parse

/-- Two summands over space, the first with its vectors out of order. -/
theorem parse_e3ga : ∃ A : Clifford Float, ofConfig Config.e3ga = .ok A ∧
    A.parse "e2^e1 - e1" = .ok (A.compress
      (A.denseSum [⟨[], .blade 1 [0]⟩, ⟨[.minus], .blade 0 []⟩]) 0 A.table.fullSet) ∧
    A.table.index (.ofVectors [1, 0]) < A.denseZeros.size := by
  have horder : (Config.e3ga : Config Float).basisOrder =
      .ok [[], [0], [1], [2], [0, 1], [1, 2], [2, 0], [0, 1, 2]] := by decide +kernel
  have hA := ofConfig_eq_ok_iff.mpr ⟨_, horder, rfl⟩
  have htokens : (tokens (Config.e3ga : Config Float).vectors "e2^e1 - e1" : List (Token Float)) =
      [.vector 1, .wedge, .vector 0, .minus, .vector 0] := by
    with_unfolding_all rfl
  have hsum : IsSum ([⟨[], .blade 1 [0]⟩, ⟨[.minus], .blade 0 []⟩] : List (Summand Float)) := by
    simp [IsSum, Signed]
  have hvectors : ∀ v ∈ [1, 0], (.vector v : Token Float) ∈
      tokens (Config.e3ga : Config Float).vectors "e2^e1 - e1" := by
    simp [htokens]
  obtain ⟨haccepts, -, hplaces⟩ := parse_of_ofConfig hA "e2^e1 - e1"
  exact ⟨_, hA, (haccepts _).mpr ⟨_, hsum, htokens, rfl⟩, (hplaces [1, 0] hvectors).2.2⟩

end Clifford

end GeometricAlgebra
