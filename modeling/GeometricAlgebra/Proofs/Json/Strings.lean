/-
  GeometricAlgebra.Proofs.Json.Strings

  Strings in JSON texts.  Whatever characters a text has, the reader finds them again behind their
  escapes; what is no text is written as half of a surrogate pair and is no text again.

    * `readPieces?_escapeChar`: the piece that comes back for a character.
    * `readText?_quoted`: a quoted string is read back.
-/

import GeometricAlgebra.Json.Reader
import GeometricAlgebra.Json.Writer

namespace GeometricAlgebra.Json

/-! ## Pieces -/

/-- A piece that stands for a character: the character itself, or the code of a control
    character. -/
def Piece.Denotes (p : Piece) (c : Char) : Prop :=
  p = .char c ∨ p = .unit c.toNat ∧ c.toNat < 0x20

theorem decodePieces?_cons {p : Piece} {c : Char} (h : p.Denotes c) (ps : List Piece) :
    decodePieces? (p :: ps) = (decodePieces? ps).map (c :: ·) := by
  rcases h with rfl | ⟨rfl, hc⟩
  · rw [decodePieces?]
  · -- the code of a control character is no surrogate
    have hhigh : isHighSurrogate c.toNat = false := by
      simp only [isHighSurrogate, Bool.and_eq_false_imp, decide_eq_true_eq]
      omega
    have hlow : isLowSurrogate c.toNat = false := by
      simp only [isLowSurrogate, Bool.and_eq_false_imp, decide_eq_true_eq]
      omega
    cases ps with
    | nil => simp [decodePieces?, hhigh, hlow]
    | cons q ps =>
      cases q with
      | char d => simp [decodePieces?, hhigh, hlow]
      | unit n => simp [decodePieces?, hhigh, hlow]

theorem hexUnit?_control : ∀ n < 0x20,
    hexUnit? '0' '0' (Nat.digitChar (n / 16)) (Nat.digitChar (n % 16)) = some n := by
  decide

/-! ## Reading -/

theorem readPieces?_short {e c : Char} (he : e ≠ 'u') (h : shortEscape? e = some c)
    (rest : List Char) : readPieces? ('\\' :: e :: rest) =
      (readPieces? rest).map fun r => (.char c :: r.1, r.2) := by
  rw [readPieces?.eq_def]
  split
  · next h' => exact absurd h' (by simp)
  · next h' => exact absurd (List.cons.inj h').1 (by decide)
  · next h' => exact absurd (List.cons.inj (List.cons.inj h').2).1 he
  · next h' =>
    obtain ⟨rfl, rfl⟩ := List.cons.inj (List.cons.inj h').2
    rw [h]
    cases readPieces? rest <;> rfl
  · next hother h' =>
    exact absurd (List.cons.inj h').2.symm (hother e rest (List.cons.inj h').1.symm)

theorem readPieces?_plain {c : Char} (hquote : c ≠ '"') (hescape : c ≠ '\\')
    (hcontrol : ¬ c.toNat < 0x20) (rest : List Char) : readPieces? (c :: rest) =
      (readPieces? rest).map fun r => (.char c :: r.1, r.2) := by
  rw [readPieces?.eq_def]
  split
  · next h' => exact absurd h' (by simp)
  · next h' => exact absurd (List.cons.inj h').1 hquote
  · next h' => exact absurd (List.cons.inj h').1 hescape
  · next h' => exact absurd (List.cons.inj h').1 hescape
  · next h' =>
    obtain ⟨rfl, rfl⟩ := List.cons.inj h'
    rw [if_neg (by simp [hescape, hcontrol])]
    cases readPieces? rest <;> rfl

/-- An escaped character is read as one piece that stands for it. -/
theorem readPieces?_escapeChar (c : Char) : ∃ p : Piece, p.Denotes c ∧ ∀ rest,
    readPieces? (escapeChar c ++ rest) =
      (readPieces? rest).map fun r => (p :: r.1, r.2) := by
  unfold escapeChar
  split
  · exact ⟨.char '"', .inl rfl, readPieces?_short (by decide) rfl⟩
  · exact ⟨.char '\\', .inl rfl, readPieces?_short (by decide) rfl⟩
  · exact ⟨.char '\x08', .inl rfl, readPieces?_short (by decide) rfl⟩
  · exact ⟨.char '\t', .inl rfl, readPieces?_short (by decide) rfl⟩
  · exact ⟨.char '\n', .inl rfl, readPieces?_short (by decide) rfl⟩
  · exact ⟨.char '\x0c', .inl rfl, readPieces?_short (by decide) rfl⟩
  · exact ⟨.char '\r', .inl rfl, readPieces?_short (by decide) rfl⟩
  · next hquote hescape _ _ _ _ _ =>
    by_cases hcontrol : c.toNat < 0x20
    · refine ⟨.unit c.toNat, .inr ⟨rfl, hcontrol⟩, fun rest => ?_⟩
      have hunit := hexUnit?_control c.toNat hcontrol
      rw [if_pos hcontrol]
      simp only [List.cons_append, List.nil_append, readPieces?, hunit]
      cases readPieces? rest <;> rfl
    · refine ⟨.char c, .inl rfl, fun rest => ?_⟩
      rw [if_neg hcontrol]
      exact readPieces?_plain hquote hescape hcontrol rest

/-- The characters of a text come back up to the closing quote. -/
theorem exists_readPieces? (cs : List Char) : ∃ ps, decodePieces? ps = some cs ∧ ∀ rest,
    readPieces? (cs.flatMap escapeChar ++ '"' :: rest) = some (ps, rest) := by
  induction cs with
  | nil => exact ⟨[], rfl, fun rest => by rw [List.flatMap_nil, List.nil_append, readPieces?]⟩
  | cons c cs ih =>
    obtain ⟨p, hp, hread⟩ := readPieces?_escapeChar c
    obtain ⟨ps, hdecode, hrest⟩ := ih
    refine ⟨p :: ps, by rw [decodePieces?_cons hp, hdecode]; rfl, fun rest => ?_⟩
    rw [List.flatMap_cons, List.append_assoc, hread, hrest]
    rfl

/-- A quoted string is read back, also if it is no text. -/
theorem readText?_quoted (t : Text) : ∃ body, quoted t = '"' :: body ∧
    ∀ rest, readText? (body ++ rest) = some (t, rest) := by
  cases t with
  | none =>
    refine ⟨['\\', 'u', 'd', '8', '0', '0', '"'], rfl, fun rest => ?_⟩
    have hunit : hexUnit? 'd' '8' '0' '0' = some 0xD800 := by decide
    simp only [List.cons_append, List.nil_append, readText?, readPieces?, hunit,
      Option.bind_eq_bind, Option.bind_some, Option.pure_def, decodePieces?]
    rfl
  | some s =>
    obtain ⟨ps, hdecode, hread⟩ := exists_readPieces? s.toList
    refine ⟨s.toList.flatMap escapeChar ++ ['"'], rfl, fun rest => ?_⟩
    rw [List.append_assoc, List.singleton_append, readText?, hread]
    simp only [Option.bind_eq_bind, Option.bind_some, hdecode, Option.map_some,
      String.ofList_toList, Option.pure_def]

end GeometricAlgebra.Json
