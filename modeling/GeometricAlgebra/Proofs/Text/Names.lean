/-
  GeometricAlgebra.Proofs.Text.Names

  Names of basis vectors in a text.  The names of an accepted algebra are valid and different, so
  each lexes as the one vector that it names, and names joined by `^` lex as a wedge.

    * `isIdentifier_of_validate`, `nodup_of_validate`: what acceptance says of names.
    * `scanned_of_validate`: a name is the token of its vector.
    * `Clifford.scanned_wedge`: names joined by `^`.
-/

import GeometricAlgebra.Proofs.Numbering
import GeometricAlgebra.Proofs.Text.Grammar
import GeometricAlgebra.Proofs.Text.Spelling

namespace GeometricAlgebra

namespace Text

theorem bytes_append (s t : String) : bytes (s ++ t) = bytes s ++ bytes t := by
  rw [bytes, String.toList_append, List.flatMap_append, bytes, bytes]

/-- A valid name is its own list of bytes. -/
theorem bytes_of_isIdentifier {name : String} (h : Config.isIdentifier name = true) :
    bytes name = name.toList := by
  refine bytes_eq_toList fun d hd => ?_
  unfold Config.isIdentifier at h
  cases hname : name.toList with
  | nil => exact absurd hd (by simp [hname])
  | cons c cs =>
    simp only [hname, Bool.and_eq_true, List.all_eq_true] at h hd
    rcases List.mem_cons.mp hd with rfl | hd
    · exact (toNat_of_isIdentifierRest (isIdentifierRest_of_isIdentifierStart h.1)).2
    · exact (toNat_of_isIdentifierRest (h.2 d hd)).2

/-! ## Marks -/

section Marks

variable {α : Type} [Numeral α] (names : List String) (cs : List Char)

theorem scanned_wedge_mark :
    (scanned names ('^' :: cs) : List (Token α)) = .wedge :: scanned names cs :=
  scanned_cons names (by decide) cs

theorem scanned_times_mark :
    (scanned names ('*' :: cs) : List (Token α)) = .times :: scanned names cs :=
  scanned_cons names (by decide) cs

theorem scanned_plus_mark :
    (scanned names ('+' :: cs) : List (Token α)) = .plus :: scanned names cs :=
  scanned_cons names (by decide) cs

theorem scanned_minus_mark :
    (scanned names ('-' :: cs) : List (Token α)) = .minus :: scanned names cs :=
  scanned_cons names (by decide) cs

end Marks

/-! ## Names -/

section Validated

variable {α : Type} {c : Config α} (h : c.validate = .ok ())
include h

theorem isIdentifier_of_validate {name : String} (hname : name ∈ c.vectors) :
    Config.isIdentifier name = true := by
  obtain ⟨-, -, hnames, -⟩ := Config.validate_eq_ok_iff.mp h
  exact (Config.checkNames_eq_ok_iff.mp hnames).1 name hname

theorem nodup_of_validate : c.vectors.Nodup := by
  obtain ⟨-, -, hnames, -⟩ := Config.validate_eq_ok_iff.mp h
  exact (Config.checkNames_eq_ok_iff.mp hnames).2.1

end Validated

/-- A name that a description may have is the token of its vector. -/
theorem scanned_of_validate {α : Type} [Numeral α] {c : Config α} (h : c.validate = .ok ())
    {i : Nat} (hi : i < c.vectors.length) {rest : List Char} (hrest : Boundary rest) :
    (scanned c.vectors (bytes c.vectors[i] ++ rest) : List (Token α)) =
      .vector i :: scanned c.vectors rest := by
  have hvalid := isIdentifier_of_validate h (List.getElem_mem hi)
  rw [bytes_of_isIdentifier hvalid, scanned_name c.vectors hvalid hrest,
    ofIdentifier_getElem (nodup_of_validate h) hi]

end Text

namespace Clifford

open Text

variable {α : Type} [Numeral α] {c : Config α} {A : Clifford α} (h : ofConfig c = .ok A)
include h

theorem validate_of_ofConfig : A.config.validate = .ok () := by
  obtain ⟨order, horder, rfl⟩ := ofConfig_eq_ok_iff.mp h
  exact (Config.basisOrder_eq_ok_iff.mp horder).1

theorem vectorName_eq {i : Nat} (hi : i < A.dimension) :
    ∃ hi : i < A.config.vectors.length, A.vectorName i = A.config.vectors[i] := by
  have hlt : i < A.config.vectors.length := by rwa [length_vectors_of_ofConfig h]
  refine ⟨hlt, ?_⟩
  rw [vectorName, List.getD_eq_getElem?_getD, List.getElem?_eq_getElem hlt, Option.getD_some]

/-- A name is the token of its vector. -/
theorem scanned_vectorName {i : Nat} (hi : i < A.dimension) {rest : List Char}
    (hrest : Boundary rest) :
    (scanned A.config.vectors (bytes (A.vectorName i) ++ rest) : List (Token α)) =
      .vector i :: scanned A.config.vectors rest := by
  obtain ⟨hlt, hname⟩ := vectorName_eq h hi
  rw [hname, scanned_of_validate (validate_of_ofConfig h) hlt hrest]

/-- Names joined by `^` are the tokens of a wedge. -/
theorem scanned_wedge {v : Nat} {vs : List Nat} (hvs : ∀ u ∈ v :: vs, u < A.dimension)
    {rest : List Char} (hrest : Boundary rest) :
    (scanned A.config.vectors (bytes ("^".intercalate ((v :: vs).map A.vectorName)) ++ rest) :
        List (Token α)) =
      .vector v :: wedgeTokens vs ++ scanned A.config.vectors rest := by
  induction vs generalizing v with
  | nil =>
    rw [List.map_singleton, String.intercalate_singleton]
    exact scanned_vectorName h (hvs v List.mem_cons_self) hrest
  | cons u us ih =>
    obtain ⟨hv, hus⟩ := List.forall_mem_cons.mp hvs
    have hmark : bytes "^" = ['^'] := by decide
    have hboundary : ∀ cs, Boundary ('^' :: cs) := boundary_cons (by decide) (by decide)
    rw [List.map_cons, List.map_cons, String.intercalate_cons_cons, ← List.map_cons, bytes_append,
      bytes_append, hmark, List.append_assoc, List.append_assoc, List.singleton_append,
      scanned_vectorName h hv (hboundary _), scanned_wedge_mark, ih hus]
    rfl

end Clifford

end GeometricAlgebra
