/-
  GeometricAlgebra.Proofs.Text.Tiling

  The tokens of a text cover it.  The lexer keeps an offset, a line and a column, and these agree
  with the bytes before its place at every call; so each token says where it stands, only separators
  are skipped, and no byte is read twice.  At the end of the text the lexer stays.

    * `Cursor.At`: a place in the bytes, with its line and column.
    * `Cursor.At.next_of_cons`, `Cursor.At.next_of_nil`: what one call reads.
    * `Cursor.At.exists_run`: what all calls read.
    * `tiles_lexemes`: the tokens of any text.
-/

import GeometricAlgebra.Binary64
import GeometricAlgebra.Proofs.Text.MaximalMunch
import Mathlib.Data.List.DropRight

namespace GeometricAlgebra.Text

variable {α : Type}

/-! ## Places -/

/-- The line of a place: one more than the newlines before it. -/
def lineAt (bs : List Char) (i : Nat) : Nat := 1 + (bs.take i).count '\n'

/-- The column of a place: one more than the bytes since the last newline before it, or since the
    start. -/
def columnAt (bs : List Char) (i : Nat) : Nat := 1 + ((bs.take i).rtakeWhile (· != '\n')).length

/-- From a place to another there are only separators. -/
def Separated (bs : List Char) (i j : Nat) : Prop :=
  ∀ k (hk : k < bs.length), i ≤ k → k < j → bs[k] ≤ ' '

/-- A place in the bytes `bs`. -/
structure Cursor.At (bs : List Char) (c : Cursor) : Prop where
  offset_le : c.offset ≤ bs.length
  rest_eq : c.rest = bs.drop c.offset
  line_eq : c.line = lineAt bs c.offset
  column_eq : c.column = columnAt bs c.offset

section Places

variable {bs w cs : List Char} {i j k o l m : Nat} {c d : Cursor} {ch : Char}

theorem lineAt_succ (hi : i < bs.length) :
    lineAt bs (i + 1) = lineAt bs i + if bs[i] = '\n' then 1 else 0 := by
  rw [lineAt, lineAt, List.take_succ_eq_append_getElem hi, List.count_append,
    List.count_singleton, Nat.add_assoc]
  simp only [beq_iff_eq]

theorem columnAt_succ (hi : i < bs.length) :
    columnAt bs (i + 1) = if bs[i] = '\n' then 1 else columnAt bs i + 1 := by
  rw [columnAt, columnAt, List.take_succ_eq_append_getElem hi]
  by_cases h : bs[i] = '\n'
  · rw [if_pos h, List.rtakeWhile_concat_neg _ _ _ (by simpa using h)]
    rfl
  · rw [if_neg h, List.rtakeWhile_concat_pos _ _ _ (by simpa using h), List.length_append]
    rfl

theorem Separated.trans (hij : Separated bs i j) (hjk : Separated bs j k) : Separated bs i k := by
  intro n hn hin hnk
  by_cases hnj : n < j
  · exact hij n hn hin hnj
  · exact hjk n hn (Nat.not_lt.mp hnj) hnk

/-- Behind the first byte that follows a place. -/
theorem Cursor.At.succ (h : (⟨ch :: cs, o, l, m⟩ : Cursor).At bs) :
    (⟨cs, o + 1, if ch = '\n' then l + 1 else l, if ch = '\n' then 1 else m + 1⟩ : Cursor).At bs ∧
      ∀ hk : o < bs.length, bs[o] = ch := by
  obtain ⟨-, hrest, hline, hcolumn⟩ := h
  have ho : o < bs.length := by
    rw [← List.drop_eq_nil_iff.not.trans Nat.not_le, ← hrest]
    exact List.cons_ne_nil ch cs
  rw [List.drop_eq_getElem_cons ho] at hrest
  obtain ⟨rfl, rfl⟩ := List.cons.inj hrest
  refine ⟨⟨ho, rfl, ?_, ?_⟩, fun _ => rfl⟩
  · show _ = lineAt bs (o + 1)
    rw [lineAt_succ ho, ← hline]
    split
    · rfl
    · rfl
  · show _ = columnAt bs (o + 1)
    rw [columnAt_succ ho, ← hcolumn]

/-- Behind bytes without a newline. -/
theorem Cursor.At.add (h : (⟨w ++ cs, o, l, m⟩ : Cursor).At bs) (hw : '\n' ∉ w) :
    (⟨cs, o + w.length, l, m + w.length⟩ : Cursor).At bs := by
  induction w generalizing o m with
  | nil => exact h
  | cons ch w ih =>
    rw [List.mem_cons, not_or] at hw
    have hnext := h.succ.1
    rw [if_neg (Ne.symm hw.1), if_neg (Ne.symm hw.1)] at hnext
    have hbehind := ih hnext hw.2
    rwa [Nat.add_right_comm, Nat.add_right_comm m] at hbehind

/-- Skipping separators keeps the place right. -/
theorem Cursor.At.skip (h : (⟨cs, o, l, m⟩ : Cursor).At bs) : (Cursor.skip cs o l m).At bs ∧
    o ≤ (Cursor.skip cs o l m).offset ∧ Separated bs o (Cursor.skip cs o l m).offset := by
  induction cs generalizing o l m with
  | nil => exact ⟨h, le_rfl, fun k _ hok hko => absurd hok hko.not_ge⟩
  | cons ch cs ih =>
    obtain ⟨hnext, hbyte⟩ := h.succ
    have hrest : isSeparator ch = true → Separated bs o (o + 1) := by
      intro hch k hk hok hko
      obtain rfl : k = o := Nat.le_antisymm (Nat.lt_succ_iff.mp hko) hok
      rw [hbyte hk]
      exact of_decide_eq_true hch
    rw [Cursor.skip]
    by_cases hch : isSeparator ch = true
    · rw [if_pos hch]
      by_cases hnewline : ch = '\n'
      · rw [if_pos hnewline, if_pos hnewline] at hnext
        rw [if_pos (beq_iff_eq.mpr hnewline)]
        obtain ⟨hat, hle, hseparated⟩ := ih hnext
        exact ⟨hat, (Nat.le_succ o).trans hle, (hrest hch).trans hseparated⟩
      · rw [if_neg hnewline, if_neg hnewline] at hnext
        rw [if_neg (mt beq_iff_eq.mp hnewline)]
        obtain ⟨hat, hle, hseparated⟩ := ih hnext
        exact ⟨hat, (Nat.le_succ o).trans hle, (hrest hch).trans hseparated⟩
    · rw [if_neg hch]
      exact ⟨h, le_rfl, fun k _ hok hko => absurd hok hko.not_ge⟩

/-- Separators end before a visible byte. -/
theorem Cursor.isSeparator_eq_false_of_rest (h : c.skipSeparators.rest = ch :: cs) :
    isSeparator ch = false := by
  have hhead := List.head?_dropWhile_not isSeparator c.rest
  rw [← rest_skip c.rest c.offset c.line c.column,
    show (Cursor.skip c.rest c.offset c.line c.column).rest = ch :: cs from h] at hhead
  exact hhead

/-- The place behind a token of the bytes `w`. -/
theorem Cursor.At.advance (h : c.At bs) (hrest : c.rest = ch :: cs) (hw : w <+: ch :: cs)
    {extra : Nat} (hlength : w.length = extra + 1) (hnewline : '\n' ∉ w) :
    (c.advance cs extra).At bs := by
  obtain ⟨rest, hw⟩ := hw
  have hbefore : (⟨w ++ rest, c.offset, c.line, c.column⟩ : Cursor).At bs := by
    rw [hw, ← hrest]
    exact h
  have hbehind : cs.drop extra = rest := by
    rw [← List.drop_succ_cons (a := ch), ← hw, ← hlength, List.drop_left]
  have hadd := hbefore.add hnewline
  rw [hlength] at hadd
  rw [Cursor.advance, hbehind]
  exact hadd

/-- The bytes that start at a place, by their offsets. -/
theorem Cursor.At.extract_eq (h : c.At bs) (hw : w <+: c.rest) :
    bs.extract c.offset (c.offset + w.length) = w := by
  obtain ⟨rest, hw⟩ := hw
  rw [List.extract_eq_take_drop, Nat.add_sub_cancel_left, ← h.rest_eq, ← hw, List.take_left]

end Places

/-! ## Tokens at their places -/

/-- A token that takes bytes of the text, and where it says to stand. -/
structure Lexeme.IsToken (bs : List Char) (t : Lexeme α) : Prop where
  start_lt : t.start < t.stop
  stop_le : t.stop ≤ bs.length
  line_eq : t.line = lineAt bs t.start
  column_eq : t.column = columnAt bs t.start
  munches : t.token.Munches (bs.drop t.start) (bs.extract t.start t.stop)

/-- The end of the text. -/
structure Lexeme.IsEnd (bs : List Char) (t : Lexeme α) : Prop where
  token_eq : t.token = .stop
  start_eq : t.start = bs.length
  stop_eq : t.stop = bs.length
  line_eq : t.line = lineAt bs t.start
  column_eq : t.column = columnAt bs t.start

/-- Tokens cover the bytes from a place on: they are in order, each in bytes of its own, and what
    belongs to none of them is a separator. -/
structure Tiles (bs : List Char) (o : Nat) (ts : List (Lexeme α)) : Prop where
  inside : ∀ t ∈ ts, o ≤ t.start
  tokens : ∀ t ∈ ts, t.IsToken bs
  ordered : ts.Pairwise fun t u => t.stop ≤ u.start
  gaps : ∀ k (hk : k < bs.length), o ≤ k → (∀ t ∈ ts, k < t.start ∨ t.stop ≤ k) → bs[k] ≤ ' '

theorem tiles_nil {bs : List Char} {o : Nat} (h : Separated bs o bs.length) :
    Tiles bs o ([] : List (Lexeme α)) where
  inside _ ht := absurd ht List.not_mem_nil
  tokens _ ht := absurd ht List.not_mem_nil
  ordered := .nil
  gaps k hk hok _ := h k hk hok hk

/-- A token behind separators, and what covers the bytes behind it. -/
theorem Tiles.cons {bs : List Char} {o : Nat} {t : Lexeme α} {ts : List (Lexeme α)}
    (ht : t.IsToken bs) (hle : o ≤ t.start) (hgap : Separated bs o t.start)
    (h : Tiles bs t.stop ts) : Tiles bs o (t :: ts) where
  inside := by
    have hlt := ht.start_lt
    refine List.forall_mem_cons.mpr ⟨hle, fun u hu => ?_⟩
    have hstart := h.inside u hu
    omega
  tokens := List.forall_mem_cons.mpr ⟨ht, h.tokens⟩
  ordered := List.pairwise_cons.mpr ⟨h.inside, h.ordered⟩
  gaps k hk hok hfree := by
    obtain ⟨hfirst, hrest⟩ := List.forall_mem_cons.mp hfree
    rcases hfirst with hbefore | hbehind
    · exact hgap k hk hok hbefore
    · exact h.gaps k hk hbehind hrest

/-! ## Calls -/

section Calls

variable [Numeral α] (names : List String) {bs : List Char} {c : Cursor}

/-- The place behind the token that a call returns. -/
theorem Cursor.offset_next (c : Cursor) :
    (c.next (α := α) names).2.offset = (c.next (α := α) names).1.stop := by
  cases hrest : c.skipSeparators.rest with
  | nil => rw [next_of_nil names hrest]; rfl
  | cons ch cs => rw [next_of_cons names hrest]; rfl

/-- At the end of the text a call stays where it is. -/
theorem Cursor.At.next_of_nil (h : c.At bs) (hrest : c.skipSeparators.rest = []) :
    (c.skipSeparators.lexeme .stop 0 : Lexeme α).IsEnd bs ∧
      Separated bs c.offset bs.length ∧
      c.skipSeparators.next names =
        ((c.skipSeparators.lexeme .stop 0 : Lexeme α), c.skipSeparators) := by
  obtain ⟨hat, -, hseparated⟩ : c.skipSeparators.At bs ∧ _ ∧
    Separated bs c.offset c.skipSeparators.offset := Cursor.At.skip h
  have hoffset : c.skipSeparators.offset = bs.length := by
    have hdrop := hat.rest_eq
    rw [hrest, eq_comm, List.drop_eq_nil_iff] at hdrop
    exact Nat.le_antisymm hat.offset_le hdrop
  have hsame : c.skipSeparators.skipSeparators = c.skipSeparators := by
    rw [skipSeparators, hrest, Cursor.skip, ← hrest]
  refine ⟨⟨rfl, hoffset, hoffset, hat.line_eq, hat.column_eq⟩, hoffset ▸ hseparated, ?_⟩
  rw [Cursor.next_of_nil names (by rw [hsame, hrest]), hsame]

/-- Before the end a call reads a token behind separators. -/
theorem Cursor.At.next_of_cons (h : c.At bs) {ch : Char} {cs : List Char}
    (hrest : c.skipSeparators.rest = ch :: cs) :
    (c.next (α := α) names).1.IsToken bs ∧ (c.next (α := α) names).2.At bs ∧
      c.offset ≤ (c.next (α := α) names).1.start ∧
      Separated bs c.offset (c.next (α := α) names).1.start := by
  obtain ⟨hat, hle, hseparated⟩ : c.skipSeparators.At bs ∧ c.offset ≤ c.skipSeparators.offset ∧
    Separated bs c.offset c.skipSeparators.offset := Cursor.At.skip h
  have hvisible := isSeparator_eq_false_of_rest hrest
  obtain ⟨w, hw, hlength, hmunches⟩ := Token.munches_scan (α := α) names ch cs
  have hnewline := hmunches.newline_notMem hw hvisible
  rw [Cursor.next_of_cons names hrest]
  generalize (Token.scan names ch cs : Token α × Nat) = r at hlength hmunches
  obtain ⟨token, extra⟩ := r
  have hafter := hat.advance hrest hw hlength hnewline
  have htaken := hat.extract_eq (hrest ▸ hw)
  rw [hlength] at htaken
  refine ⟨⟨?_, hafter.offset_le, hat.line_eq, hat.column_eq, ?_⟩, hafter, hle, hseparated⟩
  · exact Nat.lt_add_of_pos_right (Nat.succ_pos extra)
  · show token.Munches (bs.drop c.skipSeparators.offset)
      (bs.extract c.skipSeparators.offset (c.skipSeparators.offset + (extra + 1)))
    rw [htaken, ← hat.rest_eq, hrest]
    exact hmunches

/-- The place that the lexer has reached after `k` calls. -/
def Cursor.after (α : Type) [Numeral α] (names : List String) (c : Cursor) (k : Nat) : Cursor :=
  (fun d => (next (α := α) names d).2)^[k] c

/-- The token that call `k` returns, counted from zero. -/
def Cursor.call (names : List String) (c : Cursor) (k : Nat) : Lexeme α :=
  ((c.after α names k).next names).1

theorem Cursor.call_zero (c : Cursor) : c.call names 0 = (c.next (α := α) names).1 := rfl

theorem Cursor.call_succ (c : Cursor) (k : Nat) :
    (c.call names (k + 1) : Lexeme α) = (c.next (α := α) names).2.call names k := by
  rw [call, after, Function.iterate_succ_apply]
  rfl

/-- A call takes the bytes up to the end of the token that it returns. -/
theorem Cursor.offset_after (c : Cursor) (k : Nat) :
    (c.after α names (k + 1)).offset = (c.call names k : Lexeme α).stop := by
  rw [after, Function.iterate_succ_apply']
  exact offset_next names _

/-- What all calls from a place on return: the tokens `ts`, which cover the bytes, then `e`. -/
structure Cursor.Run (bs : List Char) (c : Cursor) (ts : List (Lexeme α)) (e : Lexeme α) :
    Prop where
  lexemes_eq : c.lexemes names = ts ++ [e]
  length_le : ts.length ≤ bs.length - c.offset
  call_of_lt : ∀ k (hk : k < ts.length), c.call names k = ts[k]
  call_of_le : ∀ k, ts.length ≤ k → c.call names k = e
  tiles : Tiles bs c.offset ts
  isEnd : e.IsEnd bs

theorem Cursor.At.run_of_nil (h : c.At bs) (hrest : c.skipSeparators.rest = []) :
    c.Run names bs [] (c.skipSeparators.lexeme .stop 0 : Lexeme α) := by
  obtain ⟨hend, hseparated, hstay⟩ := h.next_of_nil (α := α) names hrest
  have hcalls : ∀ k, (c.skipSeparators.call names k : Lexeme α) =
      c.skipSeparators.lexeme .stop 0 := by
    intro k
    induction k with
    | zero => rw [call_zero, hstay]
    | succ k ih => rw [call_succ, hstay, ih]
  refine ⟨lexemes_of_nil names hrest, Nat.zero_le _, fun k hk => absurd hk (Nat.not_lt_zero k),
    fun k _ => ?_, tiles_nil hseparated, hend⟩
  cases k with
  | zero => rw [call_zero, Cursor.next_of_nil names hrest]
  | succ k => rw [call_succ, Cursor.next_of_nil names hrest, hcalls]

theorem Cursor.At.run_of_cons (h : c.At bs) {ch : Char} {cs : List Char}
    (hrest : c.skipSeparators.rest = ch :: cs) {ts : List (Lexeme α)} {e : Lexeme α}
    (hrun : (c.next (α := α) names).2.Run names bs ts e) :
    c.Run names bs ((c.next (α := α) names).1 :: ts) e := by
  obtain ⟨htoken, hafter, hle, hseparated⟩ := h.next_of_cons (α := α) names hrest
  have hoffset := offset_next (α := α) names c
  refine ⟨?_, ?_, ?_, ?_, ?_, hrun.isEnd⟩
  · have hstep : c.lexemes names =
        (c.next (α := α) names).1 :: (c.next (α := α) names).2.lexemes names := by
      rw [lexemes_of_cons names hrest, Cursor.next_of_cons names hrest]
    rw [hstep, hrun.lexemes_eq, List.cons_append]
  · have hlength := hrun.length_le
    have hlt := htoken.start_lt
    have hstop := htoken.stop_le
    rw [List.length_cons]
    omega
  · intro k hk
    cases k with
    | zero => rfl
    | succ k =>
      rw [call_succ, List.getElem_cons_succ]
      exact hrun.call_of_lt k (Nat.lt_of_succ_lt_succ hk)
  · intro k hk
    cases k with
    | zero => exact absurd hk (Nat.not_succ_le_zero _)
    | succ k =>
      rw [call_succ]
      exact hrun.call_of_le k (Nat.le_of_succ_le_succ hk)
  · exact .cons htoken hle hseparated (hoffset ▸ hrun.tiles)

/-- From every place of a text the calls return tokens that cover it, and then the end. -/
theorem Cursor.At.exists_run (h : c.At bs) :
    ∃ (ts : List (Lexeme α)) (e : Lexeme α), c.Run names bs ts e := by
  induction hn : bs.length - c.offset using Nat.strong_induction_on generalizing c with
  | _ n ih =>
    cases hrest : c.skipSeparators.rest with
    | nil => exact ⟨_, _, h.run_of_nil names hrest⟩
    | cons ch cs =>
      obtain ⟨htoken, hafter, hle, -⟩ := h.next_of_cons (α := α) names hrest
      have hoffset := offset_next (α := α) names c
      have hlt := htoken.start_lt
      have hstop := htoken.stop_le
      obtain ⟨ts, e, hrun⟩ := ih _ (by omega) hafter rfl
      exact ⟨_, e, h.run_of_cons names hrest hrun⟩

end Calls

/-! ## Texts -/

theorem Cursor.at_ofText (text : String) : (Cursor.ofText text).At (bytes text) :=
  ⟨Nat.zero_le _, rfl, rfl, rfl⟩

/-- Whatever the names and the text are: after at most one call for each byte and one more, the
    lexer has returned tokens that cover the bytes, each with its line and column, and it returns
    the end of the text from then on.  Each call takes the bytes up to the end of its token, and
    numbers and identifiers are as long as they can be. -/
theorem tiles_lexemes [Numeral α] (names : List String) (text : String) :
    ∃ (ts : List (Lexeme α)) (e : Lexeme α),
      lexemes names text = ts ++ [e] ∧ ts.length ≤ (bytes text).length ∧
      (∀ k (hk : k < ts.length), (Cursor.ofText text).call names k = ts[k]) ∧
      (∀ k, ts.length ≤ k → (Cursor.ofText text).call names k = e) ∧
      (∀ k, ((Cursor.ofText text).after α names (k + 1)).offset =
        ((Cursor.ofText text).call names k : Lexeme α).stop) ∧
      Tiles (bytes text) 0 ts ∧ e.IsEnd (bytes text) := by
  obtain ⟨ts, e, hrun⟩ := (Cursor.at_ofText text).exists_run (α := α) names
  exact ⟨ts, e, hrun.lexemes_eq, hrun.length_le, hrun.call_of_lt, hrun.call_of_le,
    Cursor.offset_after names _, hrun.tiles, hrun.isEnd⟩

/-- An exponent without digits, and a point without digits in the second line. -/
theorem tiles_lexemes_badNumbers :
    let text := "e1 1e+\n."
    let ts : List (Lexeme Float) :=
      [⟨.vector 0, 1, 1, 0, 2⟩, ⟨.badNumber, 1, 4, 3, 6⟩, ⟨.badNumber, 2, 1, 7, 8⟩]
    let e : Lexeme Float := ⟨.stop, 2, 2, 8, 8⟩
    lexemes ["e1"] text = ts ++ [e] ∧ Tiles (bytes text) 0 ts ∧ e.IsEnd (bytes text) ∧
      ∀ k, 3 ≤ k → (Cursor.ofText text).call ["e1"] k = e := by
  intro text ts e
  have hlexemes : lexemes ["e1"] text = ts ++ [e] := by
    show lexemes ["e1"] "e1 1e+\n." = ([⟨.vector 0, 1, 1, 0, 2⟩, ⟨.badNumber, 1, 4, 3, 6⟩,
      ⟨.badNumber, 2, 1, 7, 8⟩, ⟨.stop, 2, 2, 8, 8⟩] : List (Lexeme Float))
    with_unfolding_all rfl
  obtain ⟨ts', e', hsame, -, -, hstays, -, htiles, hend⟩ :=
    tiles_lexemes (α := Float) ["e1"] text
  obtain ⟨hts, he⟩ := List.append_inj' (hlexemes.symm.trans hsame) rfl
  obtain rfl : e = e' := (List.cons.inj he).1
  rw [← hts] at hstays htiles
  exact ⟨hlexemes, htiles, hend, hstays⟩

end GeometricAlgebra.Text
