/-
  GeometricAlgebra.Proofs.Text.Lexing

  What the lexer produces.  The end of the text is the last token and the only one of its kind; a
  basis vector is one of the names; and each token but the last takes a byte of the text.

    * `Token.Lexed`: what a token before the end may be.
    * `Cursor.exists_tokens`: the tokens from a place, the end apart.
    * `map_token_lexemes`: all tokens of a text are those before the end, and the end.
-/

import GeometricAlgebra.Text.Token
import Mathlib.Tactic.SplitIfs

namespace GeometricAlgebra.Text

variable {α : Type}

/-- The token at the end of the text. -/
def Token.isStop : Token α → Bool
  | .stop => true
  | _ => false

/-- What a token before the end of the text may be: a basis vector is an index of a name. -/
def Token.Lexed (names : List String) : Token α → Prop
  | .stop => False
  | .vector i => i < names.length
  | _ => True

theorem Token.Lexed.isStop_eq_false {names : List String} {t : Token α} (h : t.Lexed names) :
    t.isStop = false := by
  cases t with
  | stop => exact h.elim
  | _ => rfl

theorem Token.lexed_ofIdentifier (names : List String) (cs : List Char) :
    (ofIdentifier names cs : Token α).Lexed names := by
  rw [ofIdentifier]
  cases hfind : names.findIdx? (· == String.ofList cs) with
  | none => trivial
  | some i =>
    obtain ⟨hi, -⟩ := List.findIdx?_eq_some_iff_findIdx_eq.mp hfind
    exact hi

section Scan

variable [Numeral α] (names : List String)

/-- A character starts no end of the text, and an identifier stands for one of the names. -/
theorem Token.lexed_scan (c : Char) (cs : List Char) :
    (scan names c cs : Token α × Nat).1.Lexed names := by
  unfold scan
  split_ifs
  · trivial
  · trivial
  · trivial
  · trivial
  · cases scanNumber (c :: cs) with
    | mk width number => cases number <;> trivial
  · exact lexed_ofIdentifier names _
  · trivial

/-! ## Calls -/

section Calls

variable {c : Cursor} {ch : Char} {cs : List Char}

theorem Cursor.next_of_nil (h : c.skipSeparators.rest = []) :
    c.next names = ((c.skipSeparators.lexeme .stop 0 : Lexeme α), c.skipSeparators) := by
  simp only [next, h]

theorem Cursor.next_of_cons (h : c.skipSeparators.rest = ch :: cs) : c.next names =
    (c.skipSeparators.lexeme (Token.scan names ch cs : Token α × Nat).1
        ((Token.scan names ch cs : Token α × Nat).2 + 1),
      c.skipSeparators.advance cs (Token.scan names ch cs : Token α × Nat).2) := by
  simp only [next, h]

theorem Cursor.lexemes_of_nil (h : c.skipSeparators.rest = []) :
    c.lexemes names = [(c.skipSeparators.lexeme .stop 0 : Lexeme α)] := by
  rw [lexemes]
  split
  · rfl
  · rename_i hrest
    exact absurd (h.symm.trans hrest) (by simp)

theorem Cursor.lexemes_of_cons (h : c.skipSeparators.rest = ch :: cs) : c.lexemes names =
    c.skipSeparators.lexeme (Token.scan names ch cs : Token α × Nat).1
        ((Token.scan names ch cs : Token α × Nat).2 + 1) ::
      (c.skipSeparators.advance cs (Token.scan names ch cs : Token α × Nat).2).lexemes names := by
  rw [lexemes]
  split
  · rename_i hrest
    exact absurd (h.symm.trans hrest) (by simp)
  · rename_i hrest
    obtain ⟨rfl, rfl⟩ := List.cons.inj (h.symm.trans hrest)
    rfl

end Calls

/-- The tokens from a place: those before the end, at most one for each byte, and the end. -/
theorem Cursor.exists_tokens (c : Cursor) : ∃ ts : List (Token α),
    (c.lexemes names).map Lexeme.token = ts ++ [.stop] ∧ (∀ t ∈ ts, t.Lexed names) ∧
      ts.length ≤ c.rest.length := by
  fun_induction lexemes (α := α) names c with
  | case1 c h => exact ⟨[], rfl, fun t ht => absurd ht List.not_mem_nil, Nat.zero_le _⟩
  | case2 c ch cs h t ih =>
    obtain ⟨ts, hts, hlexed, hlength⟩ := ih
    refine ⟨t.1 :: ts, ?_, ?_, ?_⟩
    · rw [List.map_cons, hts]
      rfl
    · exact List.forall_mem_cons.mpr ⟨Token.lexed_scan names ch cs, hlexed⟩
    · have hskip : c.skipSeparators.rest.length ≤ c.rest.length :=
        length_rest_skip c.rest c.offset c.line c.column
      rw [h, List.length_cons] at hskip
      simp only [advance, List.length_drop] at hlength
      rw [List.length_cons]
      omega

end Scan

/-! ## The tokens of a text -/

variable [Numeral α] (names : List String) (text : String)

/-- The tokens of a text before its end. -/
def tokens : List (Token α) :=
  ((lexemes names text).map Lexeme.token).takeWhile fun t => !t.isStop

/-- All tokens of a text are those before the end, and the end. -/
theorem map_token_lexemes :
    (lexemes names text).map Lexeme.token = (tokens names text : List (Token α)) ++ [.stop] := by
  obtain ⟨ts, hts, hlexed, -⟩ := (Cursor.ofText text).exists_tokens (α := α) names
  have htokens : tokens names text = ts := by
    rw [tokens, lexemes, hts, List.takeWhile_append_of_pos]
    · exact List.append_nil ts
    · intro t ht
      rw [(hlexed t ht).isStop_eq_false]
      rfl
  rw [htokens]
  exact hts

theorem lexed_of_mem_tokens {t : Token α} (ht : t ∈ tokens names text) : t.Lexed names := by
  obtain ⟨ts, hts, hlexed, -⟩ := (Cursor.ofText text).exists_tokens (α := α) names
  have hsame : ts = tokens names text :=
    List.append_cancel_right (hts.symm.trans (map_token_lexemes names text))
  exact hlexed t (hsame ▸ ht)

theorem stop_notMem_tokens : Token.stop ∉ (tokens names text : List (Token α)) :=
  fun h => lexed_of_mem_tokens names text h

/-- Lexing ends: each token before the end takes a byte. -/
theorem length_lexemes_le :
    (lexemes names text : List (Lexeme α)).length ≤ (bytes text).length + 1 := by
  obtain ⟨ts, hts, -, hlength⟩ := (Cursor.ofText text).exists_tokens (α := α) names
  have hcount := congrArg List.length hts
  rw [List.length_map, List.length_append, List.length_singleton] at hcount
  rw [lexemes, hcount]
  exact Nat.add_le_add_right hlength 1

end GeometricAlgebra.Text
