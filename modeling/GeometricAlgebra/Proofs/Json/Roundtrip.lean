/-
  GeometricAlgebra.Proofs.Json.Roundtrip

  Written JSON texts are read back.  Every written value is read wherever the text does not go on
  with a number, and the length of its text bounds the depth that the reader needs.

    * `Value.Valid`: values whose numbers have the digits that the syntax wants.
    * `Layout.Blank`: layouts that put blanks only between items.
    * `ReadsBack`: a value is read back, whatever follows it.
    * `read?_write`: the text of a valid value is read as that value.
-/

import GeometricAlgebra.Proofs.Json.Numbers
import GeometricAlgebra.Proofs.Json.Strings

namespace GeometricAlgebra.Json

/-- A value whose numbers are written as the syntax wants them. -/
inductive Value.Valid : Value → Prop where
  | null : Valid .null
  | bool (b : Bool) : Valid (.bool b)
  | number {n : Number} : n.Valid → Valid (.number n)
  | string (s : Text) : Valid (.string s)
  | array {items : List Value} : (∀ v ∈ items, Valid v) → Valid (.array items)
  | object {members : List (Text × Value)} : (∀ m ∈ members, Valid m.2) → Valid (.object members)

/-- Blanks stand between items, and behind the colon of a member. -/
structure Layout.Blank (l : Layout) : Prop where
  newline : ∀ depth, ∀ c ∈ l.newline depth, isBlank c = true
  colon : ∃ blanks, (∀ c ∈ blanks, isBlank c = true) ∧ l.colon = ':' :: blanks

theorem Layout.blank_compact : Layout.compact.Blank :=
  ⟨by simp [compact], [], by simp, rfl⟩

theorem Layout.blank_pretty : Layout.pretty.Blank where
  newline depth c hc := by
    rcases List.mem_cons.mp hc with rfl | hc
    · rfl
    · rw [(List.mem_replicate.mp hc).2]
      rfl
  colon := ⟨[' '], by simp [isBlank], rfl⟩

/-! ## Blanks -/

section Blanks

variable {blanks cs : List Char} {c : Char}

theorem skipBlanks_cons (h : isBlank c = false) : skipBlanks (c :: cs) = c :: cs :=
  List.dropWhile_cons_of_neg (by simp [h])

variable (h : ∀ c ∈ blanks, isBlank c = true)
include h

theorem skipBlanks_append (cs : List Char) : skipBlanks (blanks ++ cs) = skipBlanks cs :=
  List.dropWhile_append_of_pos h

theorem endsNumber_append (hcs : EndsNumber cs) : EndsNumber (blanks ++ cs) := by
  cases blanks with
  | nil => exact hcs
  | cons b blanks =>
    have hb := h b List.mem_cons_self
    simp only [isBlank, Bool.or_eq_true, beq_iff_eq] at hb
    rcases hb with ((rfl | rfl) | rfl) | rfl <;> exact endsNumber_cons rfl (by decide) _

theorem readValue?_append (fuel : Nat) (cs : List Char) :
    readValue? fuel (blanks ++ cs) = readValue? fuel cs := by
  cases fuel with
  | zero => rw [readValue?, readValue?]
  | succ fuel => rw [readValue?, readValue?, skipBlanks_append h]

theorem readItems?_append (fuel : Nat) (cs : List Char) :
    readItems? fuel (blanks ++ cs) = readItems? fuel cs := by
  cases fuel with
  | zero => rw [readItems?, readItems?]
  | succ fuel => rw [readItems?, readItems?, readValue?_append h]

theorem readMembers?_append (fuel : Nat) (cs : List Char) :
    readMembers? fuel (blanks ++ cs) = readMembers? fuel cs := by
  cases fuel with
  | zero => rw [readMembers?, readMembers?]
  | succ fuel => rw [readMembers?, readMembers?, readName?, readName?, skipBlanks_append h]

theorem readDelimiter?_closing {closing : Char} (hblank : isBlank closing = false)
    (hcomma : closing ≠ ',') (rest : List Char) :
    readDelimiter? closing (blanks ++ closing :: rest) = some (false, rest) := by
  rw [readDelimiter?, skipBlanks_append h, skipBlanks_cons hblank]
  simp [hcomma]

end Blanks

theorem readDelimiter?_comma (closing : Char) (rest : List Char) :
    readDelimiter? closing (',' :: rest) = some (true, rest) := rfl

/-! ## Leaves -/

section Leaves

variable {c : Char} {cs rest : List Char} {fuel : Nat}

/-- What starts with none of the other marks is read as a number. -/
theorem readValue?_number (hblank : isBlank c = false)
    (hmarks : c ∉ ['n', 't', 'f', '"', '[', '{']) : readValue? (fuel + 1) (c :: cs) =
      (readNumber? (c :: cs)).map fun r => (.number r.1, r.2) := by
  simp only [List.mem_cons, List.not_mem_nil, or_false, not_or] at hmarks
  obtain ⟨hn, ht, hf, hquote, hbracket, hbrace⟩ := hmarks
  rw [readValue?, skipBlanks_cons hblank]
  split
  · next h => exact absurd (List.cons.inj h).1 hn
  · next h => exact absurd (List.cons.inj h).1 ht
  · next h => exact absurd (List.cons.inj h).1 hf
  · next h => exact absurd (List.cons.inj h).1 hquote
  · next h => exact absurd (List.cons.inj h).1 hbracket
  · next h => exact absurd (List.cons.inj h).1 hbrace
  · cases readNumber? (c :: cs) <;> rfl

/-- A valid number starts with a minus or a digit. -/
theorem Number.Valid.exists_render_eq_cons {n : Number} (hn : n.Valid) :
    ∃ c cs, n.render = c :: cs ∧ (c = '-' ∨ c.isDigit = true) := by
  rw [Number.render_eq]
  cases n.negative with
  | true => exact ⟨'-', _, rfl, .inl rfl⟩
  | false =>
    rcases hn.integer with hzero | ⟨c, cs, hdigits, -⟩
    · exact ⟨'0', _, by rw [hzero]; rfl, .inr rfl⟩
    · have hdigit := hn.isDigit_integer c (hdigits ▸ List.mem_cons_self)
      exact ⟨c, _, by rw [hdigits]; rfl, .inr hdigit⟩

end Leaves

/-- What starts a number is no blank and no other mark. -/
theorem not_mark_of_number {c : Char} (h : c = '-' ∨ c.isDigit = true) :
    isBlank c = false ∧ c ≠ ']' ∧ c ∉ ['n', 't', 'f', '"', '[', '{'] := by
  rcases h with rfl | hc
  · decide
  · have hne : ∀ d : Char, d.isDigit = false → c ≠ d := by
      rintro d hd rfl
      exact absurd (hc.symm.trans hd) (by decide)
    refine ⟨?_, hne ']' rfl, ?_⟩
    · simp [isBlank, hne ' ' rfl, hne '\t' rfl, hne '\n' rfl, hne '\r' rfl]
    · simp [hne 'n' rfl, hne 't' rfl, hne 'f' rfl, hne '"' rfl, hne '[' rfl, hne '{' rfl]

theorem exists_quoted_eq_cons (t : Text) : ∃ body, quoted t = '"' :: body := by
  obtain ⟨body, hbody, -⟩ := readText?_quoted t
  exact ⟨body, hbody⟩

/-- A quoted name and a colon are read back. -/
theorem readName?_quoted {l : Layout} (hl : l.Blank) (name : Text) (rest : List Char) :
    ∃ blanks, (∀ c ∈ blanks, isBlank c = true) ∧
      readName? (quoted name ++ (l.colon ++ rest)) = some (name, blanks ++ rest) := by
  obtain ⟨body, hbody, hread⟩ := readText?_quoted name
  obtain ⟨blanks, hblanks, hcolon⟩ := hl.colon
  refine ⟨blanks, hblanks, ?_⟩
  rw [hbody, hcolon, List.cons_append, readName?, skipBlanks_cons rfl]
  simp only [hread, List.cons_append, skipBlanks_cons (show isBlank ':' = false from rfl),
    Option.bind_eq_bind, Option.bind_some, Option.pure_def]

/-! ## Values -/

/-- A written value starts with no blank and closes nothing. -/
theorem Value.Valid.exists_write_eq_cons {v : Value} (hv : v.Valid) (l : Layout) (depth : Nat) :
    ∃ c cs, v.write l depth = c :: cs ∧ isBlank c = false ∧ c ≠ ']' := by
  cases hv with
  | null => exact ⟨'n', _, by rw [Value.write], rfl, by decide⟩
  | bool b =>
    cases b with
    | true => exact ⟨'t', _, by rw [Value.write], rfl, by decide⟩
    | false => exact ⟨'f', _, by rw [Value.write], rfl, by decide⟩
  | @number n hn =>
    obtain ⟨c, cs, hrender, hc⟩ := hn.exists_render_eq_cons
    obtain ⟨hblank, hbracket, -⟩ := not_mark_of_number hc
    exact ⟨c, cs, by rw [Value.write, hrender], hblank, hbracket⟩
  | string s =>
    obtain ⟨body, hbody⟩ := exists_quoted_eq_cons s
    exact ⟨'"', body, by rw [Value.write, hbody], rfl, by decide⟩
  | @array items _ =>
    cases items with
    | nil => exact ⟨'[', _, by rw [Value.write], rfl, by decide⟩
    | cons v vs => exact ⟨'[', _, by rw [Value.write]; rfl, rfl, by decide⟩
  | @object members _ =>
    cases members with
    | nil => exact ⟨'{', _, by rw [Value.write], rfl, by decide⟩
    | cons m ms => exact ⟨'{', _, by rw [Value.write]; rfl, rfl, by decide⟩

theorem Value.Valid.length_write_pos {v : Value} (hv : v.Valid) (l : Layout) (depth : Nat) :
    0 < (v.write l depth).length := by
  obtain ⟨c, cs, hwrite, -⟩ := hv.exists_write_eq_cons l depth
  rw [hwrite]
  exact Nat.succ_pos _

/-- A written member starts with the quote of its name. -/
theorem exists_writeMember_eq_cons (l : Layout) (depth : Nat) (m : Text × Value) :
    ∃ cs, writeMember l depth m = '"' :: cs := by
  obtain ⟨name, v⟩ := m
  obtain ⟨body, hbody⟩ := exists_quoted_eq_cons name
  exact ⟨body ++ l.colon ++ v.write l depth, by rw [writeMember, hbody]; rfl⟩

theorem length_writeMember_pos (l : Layout) (depth : Nat) (m : Text × Value) :
    0 < (writeMember l depth m).length := by
  obtain ⟨cs, hwrite⟩ := exists_writeMember_eq_cons l depth m
  rw [hwrite]
  exact Nat.succ_pos _

/-- A written value is read back where the text goes on with no number.  Two levels of the reader
    for each character are enough: one for the value, one for the sequence that it stands in. -/
def ReadsBack (l : Layout) (v : Value) : Prop :=
  ∀ depth fuel rest, EndsNumber rest → 2 * (v.write l depth).length ≤ fuel + 2 →
    readValue? (fuel + 1) (v.write l depth ++ rest) = some (v, rest)

section Sequences

variable {l : Layout} (hl : l.Blank)
include hl

theorem endsNumber_closing {closing : Char} (hclosing : closing = ']' ∨ closing = '}')
    (depth : Nat) (rest : List Char) : EndsNumber (l.newline depth ++ closing :: rest) := by
  refine endsNumber_append (hl.newline depth) ?_
  rcases hclosing with rfl | rfl <;> exact endsNumber_cons rfl (by decide) _

/-- Written items are read back up to the bracket. -/
theorem readItems?_write {v : Value} {vs : List Value}
    (h : ∀ u ∈ v :: vs, u.Valid ∧ ReadsBack l u) {depth outer fuel : Nat} (rest : List Char)
    (hfuel : 2 * ((v.write l depth).length + (writeItems l depth vs).length) ≤ fuel) :
    readItems? fuel (v.write l depth ++
      (writeItems l depth vs ++ (l.newline outer ++ ']' :: rest))) = some (v :: vs, rest) := by
  induction vs generalizing v fuel with
  | nil =>
    obtain ⟨hvalid, hread⟩ := h v List.mem_cons_self
    have hpos := hvalid.length_write_pos l depth
    obtain ⟨fuel, rfl⟩ : ∃ f, fuel = f + 2 := ⟨fuel - 2, by omega⟩
    have hvalue := hread depth fuel _ (endsNumber_closing hl (.inl rfl) outer rest) (by omega)
    have hclose : readDelimiter? ']' (l.newline outer ++ ']' :: rest) = some (false, rest) :=
      readDelimiter?_closing (hl.newline outer) rfl (by decide) rest
    rw [readItems?, writeItems, List.nil_append, hvalue]
    simp only [hclose, Option.bind_eq_bind, Option.bind_some, Option.pure_def]
    rfl
  | cons u vs ih =>
    obtain ⟨⟨hvalid, hread⟩, hrest⟩ := List.forall_mem_cons.mp h
    have hpos := hvalid.length_write_pos l depth
    obtain ⟨fuel, rfl⟩ : ∃ f, fuel = f + 2 := ⟨fuel - 2, by omega⟩
    simp only [writeItems, List.length_cons, List.length_append] at hfuel
    have hends : EndsNumber (',' :: (l.newline depth ++ (u.write l depth ++
        (writeItems l depth vs ++ (l.newline outer ++ ']' :: rest))))) :=
      endsNumber_cons rfl (by decide) _
    have hvalue := hread depth fuel _ hends (by omega)
    have hmore : readItems? (fuel + 1) (u.write l depth ++
        (writeItems l depth vs ++ (l.newline outer ++ ']' :: rest))) = some (u :: vs, rest) :=
      ih hrest (by omega)
    rw [readItems?, writeItems]
    simp only [List.cons_append, List.append_assoc, hvalue, readDelimiter?_comma,
      readItems?_append (hl.newline depth), hmore, Option.bind_eq_bind, Option.bind_some,
      Option.pure_def, if_true]

/-- A written member is read back, name and value. -/
theorem readMember_write {m : Text × Value} (h : ReadsBack l m.2) {depth fuel : Nat}
    {rest : List Char} (hrest : EndsNumber rest)
    (hfuel : 2 * (writeMember l depth m).length ≤ fuel + 2) :
    ∃ cs, readName? (writeMember l depth m ++ rest) = some (m.1, cs) ∧
      readValue? (fuel + 1) cs = some (m.2, rest) := by
  obtain ⟨name, v⟩ := m
  obtain ⟨blanks, hblanks, hname⟩ := readName?_quoted hl name (v.write l depth ++ rest)
  simp only [writeMember, List.length_append] at hfuel
  refine ⟨blanks ++ (v.write l depth ++ rest), ?_, ?_⟩
  · rw [writeMember, List.append_assoc, List.append_assoc, hname]
  · have hvalue := h depth fuel rest hrest (by show 2 * (v.write l depth).length ≤ _; omega)
    rw [readValue?_append hblanks, hvalue]

/-- Written members are read back up to the brace. -/
theorem readMembers?_write {m : Text × Value} {ms : List (Text × Value)}
    (h : ∀ u ∈ m :: ms, ReadsBack l u.2) {depth outer fuel : Nat} (rest : List Char)
    (hfuel : 2 * ((writeMember l depth m).length + (writeMembers l depth ms).length) ≤ fuel) :
    readMembers? fuel (writeMember l depth m ++
      (writeMembers l depth ms ++ (l.newline outer ++ '}' :: rest))) = some (m :: ms, rest) := by
  induction ms generalizing m fuel with
  | nil =>
    have hpos := length_writeMember_pos l depth m
    obtain ⟨fuel, rfl⟩ : ∃ f, fuel = f + 2 := ⟨fuel - 2, by omega⟩
    have hfirst : 2 * (writeMember l depth m).length ≤ fuel + 2 := by omega
    obtain ⟨cs, hname, hvalue⟩ := readMember_write hl (h m List.mem_cons_self)
      (endsNumber_closing hl (.inr rfl) outer rest) hfirst
    have hclose : readDelimiter? '}' (l.newline outer ++ '}' :: rest) = some (false, rest) :=
      readDelimiter?_closing (hl.newline outer) rfl (by decide) rest
    rw [readMembers?, writeMembers, List.nil_append, hname]
    simp only [hvalue, hclose, Option.bind_eq_bind, Option.bind_some, Option.pure_def]
    rfl
  | cons u ms ih =>
    obtain ⟨hread, hrest⟩ := List.forall_mem_cons.mp h
    have hpos := length_writeMember_pos l depth m
    obtain ⟨fuel, rfl⟩ : ∃ f, fuel = f + 2 := ⟨fuel - 2, by omega⟩
    simp only [writeMembers, List.length_cons, List.length_append] at hfuel
    have hends : EndsNumber (',' :: (l.newline depth ++ (writeMember l depth u ++
        (writeMembers l depth ms ++ (l.newline outer ++ '}' :: rest))))) :=
      endsNumber_cons rfl (by decide) _
    have hfirst : 2 * (writeMember l depth m).length ≤ fuel + 2 := by omega
    obtain ⟨cs, hname, hvalue⟩ := readMember_write hl hread hends hfirst
    have hmore : readMembers? (fuel + 1) (writeMember l depth u ++
        (writeMembers l depth ms ++ (l.newline outer ++ '}' :: rest))) = some (u :: ms, rest) :=
      ih hrest (by omega)
    rw [readMembers?, writeMembers]
    simp only [List.cons_append, List.append_assoc, hname, hvalue, readDelimiter?_comma,
      readMembers?_append (hl.newline depth), hmore, Option.bind_eq_bind, Option.bind_some,
      Option.pure_def, if_true]

end Sequences

section Values

variable {l : Layout} {fuel : Nat} {rest : List Char}

theorem readsBack_number {n : Number} (hn : n.Valid) : ReadsBack l (.number n) := by
  intro depth fuel rest hrest _
  obtain ⟨c, cs, hrender, hc⟩ := hn.exists_render_eq_cons
  obtain ⟨hblank, -, hmarks⟩ := not_mark_of_number hc
  have hread := readNumber?_render hn hrest
  rw [hrender, List.cons_append] at hread
  rw [Value.write, hrender, List.cons_append]
  rw [readValue?_number hblank hmarks, hread]
  rfl

theorem readsBack_string (s : Text) : ReadsBack l (.string s) := by
  intro depth fuel rest _ _
  obtain ⟨body, hbody, hread⟩ := readText?_quoted s
  rw [Value.write, hbody, List.cons_append, readValue?, skipBlanks_cons rfl]
  simp only [hread, Option.bind_eq_bind, Option.bind_some, Option.pure_def]

theorem readsBack_null : ReadsBack l .null := by
  intro depth fuel rest _ _
  rw [Value.write]
  rfl

theorem readsBack_bool (b : Bool) : ReadsBack l (.bool b) := by
  intro depth fuel rest _ _
  cases b <;> rw [Value.write] <;> rfl

/-- Behind an opening bracket, a text that closes nothing starts the items. -/
theorem readValue?_items {blanks cs : List Char} {c : Char} {items : List Value}
    (hblanks : ∀ b ∈ blanks, isBlank b = true) (hblank : isBlank c = false) (hc : c ≠ ']')
    (hitems : readItems? fuel (c :: cs) = some (items, rest)) :
    readValue? (fuel + 1) ('[' :: (blanks ++ c :: cs)) = some (.array items, rest) := by
  rw [readValue?, skipBlanks_cons rfl]
  simp only [skipBlanks_append hblanks, skipBlanks_cons hblank]
  split
  · next h => exact absurd (List.cons.inj h).1 hc
  · simp only [hitems, Option.bind_eq_bind, Option.bind_some, Option.pure_def]

/-- Behind an opening brace, a quote starts the members. -/
theorem readValue?_members {blanks cs : List Char} {members : List (Text × Value)}
    (hblanks : ∀ b ∈ blanks, isBlank b = true)
    (hmembers : readMembers? fuel ('"' :: cs) = some (members, rest)) :
    readValue? (fuel + 1) ('{' :: (blanks ++ '"' :: cs)) = some (.object members, rest) := by
  rw [readValue?, skipBlanks_cons rfl]
  simp only [skipBlanks_append hblanks, skipBlanks_cons (show isBlank '"' = false from rfl)]
  show ((readMembers? fuel ('"' :: cs)).bind fun r => some (Value.object r.1, r.2)) = _
  rw [hmembers, Option.bind_some]

theorem readsBack_array (hl : l.Blank) {items : List Value}
    (h : ∀ v ∈ items, v.Valid ∧ ReadsBack l v) : ReadsBack l (.array items) := by
  intro depth fuel rest _ hfuel
  cases items with
  | nil =>
    rw [Value.write]
    rfl
  | cons v vs =>
    rw [Value.write] at hfuel ⊢
    simp only [List.length_append, List.length_cons, List.length_nil] at hfuel
    have hbound : 2 * ((v.write l (depth + 1)).length +
        (writeItems l (depth + 1) vs).length) ≤ fuel := by omega
    have hitems : readItems? fuel (v.write l (depth + 1) ++ (writeItems l (depth + 1) vs ++
        (l.newline depth ++ ']' :: rest))) = some (v :: vs, rest) :=
      readItems?_write hl h rest hbound
    obtain ⟨c, cs, hwrite, hblank, hc⟩ :=
      (h v List.mem_cons_self).1.exists_write_eq_cons l (depth + 1)
    rw [hwrite] at hitems ⊢
    simp only [List.cons_append, List.append_assoc, List.nil_append] at hitems ⊢
    exact readValue?_items (hl.newline _) hblank hc hitems

theorem readsBack_object (hl : l.Blank) {members : List (Text × Value)}
    (h : ∀ m ∈ members, ReadsBack l m.2) : ReadsBack l (.object members) := by
  intro depth fuel rest _ hfuel
  cases members with
  | nil =>
    rw [Value.write]
    rfl
  | cons m ms =>
    rw [Value.write] at hfuel ⊢
    simp only [List.length_append, List.length_cons, List.length_nil] at hfuel
    have hbound : 2 * ((writeMember l (depth + 1) m).length +
        (writeMembers l (depth + 1) ms).length) ≤ fuel := by omega
    have hmembers : readMembers? fuel (writeMember l (depth + 1) m ++
        (writeMembers l (depth + 1) ms ++ (l.newline depth ++ '}' :: rest))) =
        some (m :: ms, rest) :=
      readMembers?_write hl h rest hbound
    obtain ⟨cs, hwrite⟩ := exists_writeMember_eq_cons l (depth + 1) m
    rw [hwrite] at hmembers ⊢
    simp only [List.cons_append, List.append_assoc, List.nil_append] at hmembers ⊢
    exact readValue?_members (hl.newline _) hmembers

end Values

/-- Every valid value is read back. -/
theorem Value.Valid.readsBack {l : Layout} (hl : l.Blank) {v : Value} (hv : v.Valid) :
    ReadsBack l v := by
  induction hv with
  | null => exact readsBack_null
  | bool b => exact readsBack_bool b
  | number hn => exact readsBack_number hn
  | string s => exact readsBack_string s
  | array hitems ih => exact readsBack_array hl fun v hv => ⟨hitems v hv, ih v hv⟩
  | object _ ih => exact readsBack_object hl ih

/-! ## Documents -/

/-- The text of a valid value is read as that value. -/
theorem read?_write {l : Layout} (hl : l.Blank) {v : Value} (hv : v.Valid) :
    read? (String.ofList (v.write l 0)) = some v := by
  have hread := hv.readsBack hl 0 (2 * (v.write l 0).length) [] endsNumber_nil (by omega)
  rw [List.append_nil] at hread
  rw [read?, String.toList_ofList]
  simp only [hread, Option.bind_eq_bind, Option.bind_some]
  rfl

theorem read?_pretty {v : Value} (hv : v.Valid) : read? v.pretty = some v :=
  read?_write Layout.blank_pretty hv

theorem read?_compact {v : Value} (hv : v.Valid) : read? v.compact = some v :=
  read?_write Layout.blank_compact hv

end GeometricAlgebra.Json
