/-
  GeometricAlgebra.Proofs.Text.MaximalMunch

  Numbers and identifiers are read as far as they go.  A number is described by its parts, and the
  longest text of two parts is the longest first part with the longest second part behind it, if what
  starts the second part does not stand in the first.

    * `IsLongest`: the longest start of a text that has a shape.
    * `IsLongest.followed`: two parts, one behind the other.
    * `exists_number`: the longest number, and when it is a bad one.
    * `Token.munches_scan`: what each token takes.
-/

import GeometricAlgebra.Proofs.Text.Spelling

namespace GeometricAlgebra.Text

/-! ## Longest starts -/

/-- Among the starts of a text, the longest one of a shape. -/
structure IsLongest (shape : List Char → Prop) (text w : List Char) : Prop where
  start : w <+: text
  fits : shape w
  longest : ∀ v, v <+: text → shape v → v.length ≤ w.length

/-- Nothing, or a mark and something behind it. -/
def Marked (mark : Char → Prop) (p : List Char → Prop) : List Char → Prop
  | [] => True
  | c :: w => mark c ∧ p w

/-- Two parts, of which the second may depend on the first. -/
def Followed (p : List Char → Prop) (q : List Char → List Char → Prop) (w : List Char) : Prop :=
  ∃ u v, w = u ++ v ∧ p u ∧ q u v

section Longest

variable {p : List Char → Prop} {q : List Char → List Char → Prop} {mark : Char → Prop}
  {text u v w : List Char} {c : Char}

/-- A narrower shape, if the longest start has it. -/
theorem IsLongest.narrow {shape : List Char → Prop} (h : IsLongest p text w) (hw : shape w)
    (himp : ∀ v, shape v → p v) : IsLongest shape text w :=
  ⟨h.start, hw, fun v hv hshape => h.longest v hv (himp v hshape)⟩

theorem isLongest_takeWhile (p : Char → Bool) (text : List Char) :
    IsLongest (fun w => ∀ c ∈ w, p c = true) text (text.takeWhile p) := by
  refine ⟨List.takeWhile_prefix p, fun c hc => List.mem_takeWhile_imp hc, ?_⟩
  rintro v ⟨rest, rfl⟩ hv
  rw [List.takeWhile_append_of_pos hv, List.length_append]
  exact Nat.le_add_right _ _

theorem isLongest_marked_nil (h : ∀ c ∈ text.head?, ¬ mark c) :
    IsLongest (Marked mark p) text [] := by
  refine ⟨List.nil_prefix, trivial, ?_⟩
  rintro (_ | ⟨c, v⟩) hv hmarked
  · exact le_rfl
  · obtain ⟨rest, rfl⟩ := hv
    exact absurd hmarked.1 (h c rfl)

theorem IsLongest.marked (h : IsLongest p text w) (hc : mark c) :
    IsLongest (Marked mark p) (c :: text) (c :: w) := by
  refine ⟨List.cons_prefix_cons.mpr ⟨rfl, h.start⟩, ⟨hc, h.fits⟩, ?_⟩
  rintro (_ | ⟨d, v⟩) hv hmarked
  · exact Nat.zero_le _
  · obtain ⟨rfl, hbehind⟩ := List.cons_prefix_cons.mp hv
    exact Nat.succ_le_succ (h.longest v hbehind hmarked.2)

/-- The longest first part, and the longest second part behind it. -/
theorem IsLongest.followed (mark : Char → Prop) (hu : IsLongest p text u)
    (hv : IsLongest (q u) (text.drop u.length) v) (hq : ∀ u c v, q u (c :: v) → mark c)
    (hmark : ∀ c ∈ u, ¬ mark c) : IsLongest (Followed p q) text (u ++ v) := by
  have htext := List.prefix_iff_eq_append.mp hu.start
  refine ⟨?_, ⟨u, v, rfl, hu.fits, hv.fits⟩, ?_⟩
  · rw [← htext, List.prefix_append_right_inj]
    exact hv.start
  · rintro _ hprefix ⟨u', v', rfl, hp, hqv⟩
    have hu' : u' <+: text := (List.prefix_append u' v').trans hprefix
    have hle := hu.longest u' hu' hp
    cases v' with
    | nil =>
      rw [List.append_nil, List.length_append]
      exact hle.trans (Nat.le_add_right _ _)
    | cons c v' =>
      -- a shorter first part would have the mark behind it inside the longest one
      have hlength : u'.length = u.length := by
        refine hle.antisymm (Nat.not_lt.mp fun hlt => ?_)
        have hstart : u' ++ [c] <+: text := by
          refine List.IsPrefix.trans ?_ hprefix
          rw [List.prefix_append_right_inj]
          exact List.cons_prefix_cons.mpr ⟨rfl, List.nil_prefix⟩
        have hinside : u' ++ [c] <+: u :=
          List.prefix_of_prefix_length_le hstart hu.start (by simpa using hlt)
        exact hmark c (hinside.subset (by simp)) (hq _ _ _ hqv)
      obtain rfl : u' = u :=
        (List.prefix_of_prefix_length_le hu' hu.start hle).eq_of_length hlength
      have hbehind : c :: v' <+: text.drop u'.length := by
        rw [← htext, List.prefix_append_right_inj] at hprefix
        exact hprefix
      rw [List.length_append, List.length_append]
      exact Nat.add_le_add_left (hv.longest _ hbehind hqv) _

end Longest

/-! ## Numbers -/

/-- Digits, perhaps none. -/
def IsDigits (w : List Char) : Prop := ∀ c ∈ w, c.isDigit = true

def HasDigit (w : List Char) : Prop := ∃ c ∈ w, c.isDigit = true

/-- Digits with at most one point among them. -/
def IsMantissa : List Char → Prop := Followed IsDigits fun _ => Marked (· = '.') IsDigits

def IsExponentMark (c : Char) : Prop := c = 'e' ∨ c = 'E'

def IsSignMark (c : Char) : Prop := c = '+' ∨ c = '-'

instance : DecidablePred IsExponentMark := fun c => inferInstanceAs (Decidable (c = 'e' ∨ c = 'E'))

instance : DecidablePred IsSignMark := fun c => inferInstanceAs (Decidable (c = '+' ∨ c = '-'))

/-- Perhaps a sign, then digits, perhaps none. -/
def IsSigned : List Char → Prop := Followed (Marked IsSignMark (· = [])) fun _ => IsDigits

/-- A mantissa, and behind it perhaps an exponent if the mantissa has a digit. -/
def IsNumberText : List Char → Prop :=
  Followed IsMantissa fun m e => Marked IsExponentMark IsSigned e ∧ (e ≠ [] → HasDigit m)

/-- No digit at all, or no digit behind an exponent mark. -/
def IsBadNumber (w : List Char) : Prop :=
  ¬ HasDigit w ∨ ∃ u c v, w = u ++ c :: v ∧ IsExponentMark c ∧ ¬ HasDigit v

section Parts

variable {u v w cs : List Char} {c : Char}

theorem hasDigit_append : HasDigit (u ++ v) ↔ HasDigit u ∨ HasDigit v := by
  simp only [HasDigit, List.mem_append, or_and_right, exists_or]

theorem IsDigits.hasDigit_iff (h : IsDigits w) : HasDigit w ↔ w ≠ [] := by
  constructor
  · rintro ⟨c, hc, -⟩
    exact List.ne_nil_of_mem hc
  · intro hne
    obtain ⟨c, hc⟩ := List.exists_mem_of_ne_nil w hne
    exact ⟨c, hc, h c hc⟩

theorem IsSignMark.isDigit_eq_false (h : IsSignMark c) : c.isDigit = false := by
  obtain rfl | rfl := h
  · decide
  · decide

theorem IsExponentMark.isDigit_eq_false (h : IsExponentMark c) : c.isDigit = false := by
  obtain rfl | rfl := h
  · decide
  · decide

/-- What stands in a mantissa. -/
theorem IsMantissa.mem (h : IsMantissa w) (hc : c ∈ w) : c.isDigit = true ∨ c = '.' := by
  obtain ⟨u, v, rfl, hu, hv⟩ := h
  rcases List.mem_append.mp hc with hc | hc
  · exact .inl (hu c hc)
  · cases v with
    | nil => exact absurd hc List.not_mem_nil
    | cons d v =>
      rcases List.mem_cons.mp hc with rfl | hc
      · exact .inr hv.1
      · exact .inl (hv.2 c hc)

theorem IsMantissa.not_isExponentMark (h : IsMantissa w) (hc : c ∈ w) : ¬ IsExponentMark c := by
  intro hmark
  rcases h.mem hc with hdigit | rfl
  · rw [hmark.isDigit_eq_false] at hdigit
    contradiction
  · exact absurd hmark (by decide)

theorem Marked.isDigit_eq_false (h : Marked IsSignMark (· = []) w) (hc : c ∈ w) :
    c.isDigit = false := by
  cases w with
  | nil => exact absurd hc List.not_mem_nil
  | cons d w =>
    obtain ⟨hd, rfl⟩ := h
    rw [List.mem_singleton.mp hc]
    exact hd.isDigit_eq_false

/-- What stands in a signed number. -/
theorem IsSigned.mem (h : IsSigned w) (hc : c ∈ w) : c.isDigit = true ∨ IsSignMark c := by
  obtain ⟨u, v, rfl, hu, hv⟩ := h
  rcases List.mem_append.mp hc with hc | hc
  · cases u with
    | nil => exact absurd hc List.not_mem_nil
    | cons d u =>
      obtain ⟨hd, rfl⟩ := hu
      obtain rfl := List.mem_singleton.mp hc
      exact .inr hd
  · exact .inl (hv c hc)

theorem IsSigned.not_isExponentMark (h : IsSigned w) (hc : c ∈ w) : ¬ IsExponentMark c := by
  intro hmark
  rcases h.mem hc with hdigit | hsign
  · rw [hmark.isDigit_eq_false] at hdigit
    contradiction
  · obtain rfl | rfl := hsign
    · exact absurd hmark (by decide)
    · exact absurd hmark (by decide)

/-- Behind a digit, a number is bad if its exponent mark is there without digits. -/
theorem isBadNumber_append_iff {m e : List Char} (hm : IsMantissa m) (hdigit : HasDigit m)
    (he : Marked IsExponentMark IsSigned e) :
    IsBadNumber (m ++ e) ↔ ∃ c v, e = c :: v ∧ ¬ HasDigit v := by
  constructor
  · rintro (hnone | ⟨u, c, v, heq, hmark, hv⟩)
    · exact absurd (hasDigit_append.mpr (.inl hdigit)) hnone
    · -- the mark is the first character of the exponent
      rcases List.append_eq_append_iff.mp heq with ⟨a, -, rfl⟩ | ⟨a, rfl, ha⟩
      · cases a with
        | nil => exact ⟨c, v, rfl, hv⟩
        | cons d a => exact absurd hmark (he.2.not_isExponentMark (by simp))
      · cases a with
        | nil => exact ⟨c, v, ha.symm, hv⟩
        | cons d a =>
          obtain ⟨rfl, -⟩ := List.cons.inj ha
          exact absurd hmark (hm.not_isExponentMark (by simp))
  · rintro ⟨c, v, rfl, hv⟩
    exact .inr ⟨m, c, v, rfl, he.1, hv⟩

end Parts

/-! ## Scanning a number -/

theorem exists_sign (cs : List Char) : ∃ w, IsLongest (Marked IsSignMark (· = [])) cs w ∧
    (exponentSign cs).1 = w.length := by
  have hnil : ∀ cs, IsLongest (· = []) cs [] := fun cs =>
    ⟨List.nil_prefix, rfl, fun v _ hv => by rw [hv]⟩
  unfold exponentSign
  split
  · exact ⟨['+'], (hnil _).marked (.inl rfl), rfl⟩
  · exact ⟨['-'], (hnil _).marked (.inr rfl), rfl⟩
  · rename_i hplus hminus
    refine ⟨[], isLongest_marked_nil ?_, rfl⟩
    rintro c hc (rfl | rfl)
    · obtain ⟨rest, rfl⟩ := List.head?_eq_some_iff.mp hc
      exact hplus rest rfl
    · obtain ⟨rest, rfl⟩ := List.head?_eq_some_iff.mp hc
      exact hminus rest rfl

/-- The longest exponent, if any; its value is missing if no digit follows the mark. -/
theorem exists_exponent (cs : List Char) : ∃ w, IsLongest (Marked IsExponentMark IsSigned) cs w ∧
    (scanExponent cs).1 = w.length ∧
    ((scanExponent cs).2 = none ↔ ∃ c v, w = c :: v ∧ ¬ HasDigit v) := by
  cases cs with
  | nil => exact ⟨[], isLongest_marked_nil (by simp), rfl, by simp [scanExponent]⟩
  | cons c cs =>
    by_cases hmark : IsExponentMark c
    · have hcond : (c == 'e' || c == 'E') = true := by simpa [IsExponentMark] using hmark
      obtain ⟨sign, hsign, hwidth⟩ := exists_sign cs
      have hdigits := isLongest_takeWhile Char.isDigit (cs.drop sign.length)
      have hsigned : IsLongest IsSigned cs
          (sign ++ (cs.drop sign.length).takeWhile Char.isDigit) := by
        refine hsign.followed (Char.isDigit · = true) hdigits
          (fun _ c v h => h c List.mem_cons_self) ?_
        intro c hc
        rw [hsign.fits.isDigit_eq_false hc]
        decide
      have hvalue : ¬ HasDigit (sign ++ (cs.drop sign.length).takeWhile Char.isDigit) ↔
          (cs.drop sign.length).takeWhile Char.isDigit = [] := by
        have hnone : ¬ HasDigit sign := by
          rintro ⟨c, hc, hdigit⟩
          rw [hsign.fits.isDigit_eq_false hc] at hdigit
          contradiction
        rw [hasDigit_append, IsDigits.hasDigit_iff hdigits.fits]
        simp [hnone]
      refine ⟨_, hsigned.marked hmark, ?_, ?_⟩
      · rw [scanExponent, if_pos hcond, List.length_cons, List.length_append, ← hwidth]
        show 1 + (exponentSign cs).1 + _ = _
        omega
      · have hnone : (scanExponent (c :: cs)).2 = none ↔
            (cs.drop sign.length).takeWhile Char.isDigit = [] := by
          rw [scanExponent, if_pos hcond, ← hwidth, ← List.isEmpty_iff]
          show (if _ then none else some _) = none ↔ _
          simp
        rw [hnone, ← hvalue]
        exact ⟨fun h => ⟨c, _, rfl, h⟩, fun ⟨_, _, heq, h⟩ => (List.cons.inj heq).2 ▸ h⟩
    · have hcond : ¬ (c == 'e' || c == 'E') = true := by simpa [IsExponentMark] using hmark
      refine ⟨[], isLongest_marked_nil (by simpa using hmark), ?_, ?_⟩
      · rw [scanExponent, if_neg hcond]
        rfl
      · rw [scanExponent, if_neg hcond]
        simp

/-- What the scanner does behind the digits `whole` and the fraction `v`, whose digits are
    `fraction`. -/
theorem exists_fraction (cs : List Char) : ∃ v fraction,
    IsLongest (Marked (· = '.') IsDigits) (cs.drop (cs.takeWhile Char.isDigit).length) v ∧
      (HasDigit v ↔ fraction ≠ []) ∧
      scanNumber cs =
        let m := cs.takeWhile Char.isDigit ++ v
        if (cs.takeWhile Char.isDigit).isEmpty && fraction.isEmpty then (m.length, none)
        else (m.length + (scanExponent (cs.drop m.length)).1,
          (scanExponent (cs.drop m.length)).2.map
            (Decimal.ofDigits false (cs.takeWhile Char.isDigit) fraction)) := by
  by_cases hpoint : ∃ r, cs.drop (cs.takeWhile Char.isDigit).length = '.' :: r
  · obtain ⟨r, hr⟩ := hpoint
    have hdigits := isLongest_takeWhile Char.isDigit r
    refine ⟨'.' :: r.takeWhile Char.isDigit, r.takeWhile Char.isDigit, ?_, ?_, ?_⟩
    · rw [hr]
      exact hdigits.marked rfl
    · rw [← IsDigits.hasDigit_iff hdigits.fits]
      simp [HasDigit, show Char.isDigit '.' = false from rfl]
    · simp [scanNumber, hr, Nat.add_assoc, Nat.add_comm 1]
  · refine ⟨[], [], isLongest_marked_nil ?_, by simp [HasDigit], ?_⟩
    · rintro c hc rfl
      obtain ⟨r, hr⟩ := List.head?_eq_some_iff.mp hc
      exact hpoint ⟨r, hr⟩
    · cases hrest : cs.drop (cs.takeWhile Char.isDigit).length with
      | nil => simp [scanNumber, hrest]
      | cons d r =>
        have hd : d ≠ '.' := fun h => hpoint ⟨r, h ▸ hrest⟩
        simp [scanNumber, hrest, hd]

/-- The longest number, and it has no value exactly if it is a bad one. -/
theorem exists_number (cs : List Char) : ∃ w, IsLongest IsNumberText cs w ∧
    (scanNumber cs).1 = w.length ∧ ((scanNumber cs).2 = none ↔ IsBadNumber w) := by
  obtain ⟨v, fraction, hv, hdigit, hscan⟩ := exists_fraction cs
  have hwhole := isLongest_takeWhile Char.isDigit cs
  have hm : IsLongest IsMantissa cs (cs.takeWhile Char.isDigit ++ v) := by
    refine hwhole.followed (· = '.') hv (fun _ c v h => h.1) ?_
    rintro c hc rfl
    exact absurd (hwhole.fits _ hc) (by decide)
  have hmark : ∀ c ∈ cs.takeWhile Char.isDigit ++ v, ¬ IsExponentMark c := fun c hc =>
    hm.fits.not_isExponentMark hc
  have hempty : HasDigit (cs.takeWhile Char.isDigit ++ v) ↔
      ¬ ((cs.takeWhile Char.isDigit).isEmpty && fraction.isEmpty) = true := by
    rw [hasDigit_append, IsDigits.hasDigit_iff hwhole.fits, hdigit]
    simp [imp_iff_or_not, or_comm]
  simp only at hscan
  generalize cs.takeWhile Char.isDigit ++ v = m at hm hmark hempty hscan
  by_cases hm' : HasDigit m
  · obtain ⟨e, he, hwidth, hvalue⟩ := exists_exponent (cs.drop m.length)
    rw [if_neg (hempty.mp hm')] at hscan
    refine ⟨m ++ e, hm.followed IsExponentMark (he.narrow ⟨he.fits, fun _ => hm'⟩ fun v h => h.1)
      (fun _ c v h => h.1.1) hmark, ?_, ?_⟩
    · rw [hscan, List.length_append, hwidth]
    · rw [hscan, isBadNumber_append_iff hm.fits hm' he.fits, ← hvalue]
      exact Option.map_eq_none_iff
  · -- without a digit there is no exponent
    rw [if_pos (not_not.mp (mt hempty.mpr hm'))] at hscan
    have hnil : IsLongest (fun e => Marked IsExponentMark IsSigned e ∧ (e ≠ [] → HasDigit m))
        (cs.drop m.length) [] := by
      refine ⟨List.nil_prefix, ⟨trivial, fun h => absurd rfl h⟩, ?_⟩
      rintro (_ | ⟨c, v⟩) - he
      · exact le_rfl
      · exact absurd (he.2 (List.cons_ne_nil c v)) hm'
    refine ⟨m ++ [], hm.followed IsExponentMark hnil (fun _ c v h => h.1.1) hmark, ?_, ?_⟩
    · rw [hscan, List.append_nil]
    · rw [hscan, List.append_nil]
      exact ⟨fun _ => .inl hm', fun _ => rfl⟩

/-! ## Tokens -/

/-- A letter or underscore, then letters, digits and underscores. -/
def IsIdentifierText : List Char → Prop
  | [] => False
  | c :: w => isIdentifierStart c = true ∧ ∀ d ∈ w, isIdentifierRest d = true

/-- What a token takes of a text: numbers and identifiers are the longest that start there, a number
    is bad exactly if it looks bad, and the other tokens are single bytes. -/
def Token.Munches {α : Type} (text w : List Char) : Token α → Prop
  | .number _ => IsLongest IsNumberText text w ∧ ¬ IsBadNumber w
  | .badNumber => IsLongest IsNumberText text w ∧ IsBadNumber w
  | .vector _ | .badIdentifier => IsLongest IsIdentifierText text w
  | .wedge | .times | .plus | .minus | .badCharacter => w.length = 1
  | .stop => False

theorem isLongest_identifier {c : Char} (hc : isIdentifierStart c = true) (cs : List Char) :
    IsLongest IsIdentifierText (c :: cs) (c :: cs.takeWhile isIdentifierRest) := by
  have hrest := isLongest_takeWhile isIdentifierRest cs
  have hmarked : IsLongest (Marked (isIdentifierStart · = true) _) (c :: cs) _ := hrest.marked hc
  refine hmarked.narrow ⟨hc, hrest.fits⟩ ?_
  rintro (_ | ⟨d, v⟩) hv
  · exact hv.elim
  · exact hv

/-- A digit or a point is the start of a number. -/
theorem isNumberText_singleton {c : Char} (hc : c.isDigit = true ∨ c = '.') :
    IsNumberText [c] := by
  refine ⟨[c], [], rfl, ?_, trivial, fun h => absurd rfl h⟩
  rcases hc with hdigit | rfl
  · exact ⟨[c], [], rfl, by simpa [IsDigits] using hdigit, trivial⟩
  · exact ⟨[], ['.'], rfl, by simp [IsDigits], rfl, by simp [IsDigits]⟩

section Scan

variable {α : Type} [Numeral α]

/-- Each token takes a start of the text, and how much of it is said by its kind. -/
theorem Token.munches_scan (names : List String) (c : Char) (cs : List Char) :
    ∃ w, w <+: c :: cs ∧ w.length = (scan names c cs : Token α × Nat).2 + 1 ∧
      (scan names c cs : Token α × Nat).1.Munches (c :: cs) w := by
  have hsingle : [c] <+: c :: cs := List.cons_prefix_cons.mpr ⟨rfl, List.nil_prefix⟩
  unfold scan
  split_ifs with hwedge htimes hplus hminus hnumber hidentifier
  · exact ⟨[c], hsingle, rfl, rfl⟩
  · exact ⟨[c], hsingle, rfl, rfl⟩
  · exact ⟨[c], hsingle, rfl, rfl⟩
  · exact ⟨[c], hsingle, rfl, rfl⟩
  · obtain ⟨w, hw, hwidth, hvalue⟩ := exists_number (c :: cs)
    have hstart : c.isDigit = true ∨ c = '.' := by simpa using hnumber
    have hpos : 1 ≤ w.length := hw.longest [c] hsingle (isNumberText_singleton hstart)
    generalize scanNumber (c :: cs) = r at hwidth hvalue
    obtain ⟨width, _ | d⟩ := r
    · exact ⟨w, hw.start, by simp only at hwidth ⊢; omega, hw, hvalue.mp rfl⟩
    · refine ⟨w, hw.start, by simp only at hwidth ⊢; omega, hw, fun hbad => ?_⟩
      exact absurd (hvalue.mpr hbad) (by simp)
  · have hw := isLongest_identifier hidentifier cs
    refine ⟨_, hw.start, by simp, ?_⟩
    show (ofIdentifier names (c :: cs.takeWhile isIdentifierRest) : Token α).Munches _ _
    unfold ofIdentifier
    split
    · exact hw
    · exact hw
  · exact ⟨[c], hsingle, rfl, rfl⟩

end Scan

theorem IsNumberText.newline_notMem {w : List Char} (h : IsNumberText w) : '\n' ∉ w := by
  obtain ⟨m, e, rfl, hm, he, -⟩ := h
  intro hmem
  rcases List.mem_append.mp hmem with hmem | hmem
  · rcases hm.mem hmem with h | h
    · exact absurd h (by decide)
    · exact absurd h (by decide)
  · cases e with
    | nil => exact absurd hmem List.not_mem_nil
    | cons d e =>
      rcases List.mem_cons.mp hmem with rfl | hmem
      · exact absurd he.1 (by decide)
      · rcases he.2.mem hmem with h | h
        · exact absurd h (by decide)
        · exact absurd h (by decide)

theorem IsIdentifierText.newline_notMem {w : List Char} (h : IsIdentifierText w) : '\n' ∉ w := by
  intro hmem
  cases w with
  | nil => exact h
  | cons c w =>
    rcases List.mem_cons.mp hmem with rfl | hmem
    · exact absurd h.1 (by decide)
    · exact absurd (h.2 _ hmem) (by decide)

/-- No token that a visible character starts reaches over the end of a line. -/
theorem Token.Munches.newline_notMem {α : Type} {t : Token α} {c : Char} {cs w : List Char}
    (h : t.Munches (c :: cs) w) (hw : w <+: c :: cs) (hc : isSeparator c = false) : '\n' ∉ w := by
  have hsingle : w.length = 1 → '\n' ∉ w := by
    intro hlength hmem
    obtain ⟨d, rfl⟩ := List.length_eq_one_iff.mp hlength
    obtain rfl := (List.cons_prefix_cons.mp hw).1
    obtain rfl := List.mem_singleton.mp hmem
    exact absurd hc (by decide)
  cases t with
  | number x => exact h.1.fits.newline_notMem
  | badNumber => exact h.1.fits.newline_notMem
  | vector i => exact h.fits.newline_notMem
  | badIdentifier => exact h.fits.newline_notMem
  | stop => exact h.elim
  | _ => exact hsingle h

end GeometricAlgebra.Text
