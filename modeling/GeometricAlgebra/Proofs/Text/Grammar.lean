/-
  GeometricAlgebra.Proofs.Text.Grammar

  The reader against its grammar.  A sum is a list of summands; each is written as signs and a
  body, and only the first may go without a sign.

    * `Summand.tokens`, `Summand.term`: how a summand is written, and the term it stands for.
    * `State.Demands`: what the text must still hold when the reader is in a state.
    * `demands_of_run`: what the reader accepts is what its state demands.
    * `run_start`: a sum is accepted, with the terms it stands for.
    * `run_start_eq_some_iff`: nothing else is.
-/

import GeometricAlgebra.Proofs.Config
import GeometricAlgebra.Text.Expression

namespace GeometricAlgebra.Text

variable {α : Type}

/-! ## Sums as written -/

/-- A summand without the signs before it. -/
inductive Body (α : Type) where
  | number (x : α)
  -- A number, `^` or `*`, and a blade of one or more vectors.
  | scaled (x : α) (caret : Bool) (v : Nat) (vs : List Nat)
  -- A blade of one or more vectors.
  | blade (v : Nat) (vs : List Nat)
deriving DecidableEq, Repr

/-- A summand: signs, and a body. -/
structure Summand (α : Type) where
  signs : List Sign
  body : Body α
deriving DecidableEq, Repr

/-- The token of a sign. -/
def signToken : Sign → Token α
  | .plus => .plus
  | .minus => .minus

/-- The token between a number and a blade. -/
def markToken (caret : Bool) : Token α := if caret then .wedge else .times

/-- Further vectors of a blade, each behind a `^`. -/
def wedgeTokens (vs : List Nat) : List (Token α) := vs.flatMap fun v => [.wedge, .vector v]

namespace Body

def tokens : Body α → List (Token α)
  | number x => [.number x]
  | scaled x caret v vs => .number x :: markToken caret :: .vector v :: wedgeTokens vs
  | blade v vs => .vector v :: wedgeTokens vs

/-- The number, if one is written. -/
def number? : Body α → Option α
  | number x => some x
  | scaled x _ _ _ => some x
  | blade _ _ => none

/-- The wedged vectors, in written order. -/
def vectors : Body α → List Nat
  | number _ => []
  | scaled _ _ v vs => v :: vs
  | blade v vs => v :: vs

end Body

namespace Summand

def tokens (w : Summand α) : List (Token α) := w.signs.map signToken ++ w.body.tokens

/-- One change of sign for each `-`. -/
def sign (w : Summand α) : Sign := .ofSwaps (w.signs.count .minus)

/-- The term that a summand stands for. -/
def term (w : Summand α) : Term α := ⟨w.sign, w.body.number?, w.body.vectors⟩

/-- The term of a summand behind further signs, of which `sign` is the product. -/
def termBehind (sign : Sign) (w : Summand α) : Term α :=
  ⟨sign * w.sign, w.body.number?, w.body.vectors⟩

end Summand

/-- Every summand has a sign. -/
def Signed (ws : List (Summand α)) : Prop := ∀ w ∈ ws, w.signs ≠ []

theorem signed_nil : Signed ([] : List (Summand α)) := fun _ hw => absurd hw List.not_mem_nil

/-- Every summand but the first has a sign. -/
def IsSum (ws : List (Summand α)) : Prop := Signed ws.tail

/-- The tokens of a sum. -/
def sumTokens (ws : List (Summand α)) : List (Token α) := ws.flatMap Summand.tokens

theorem sumTokens_cons (w : Summand α) (ws : List (Summand α)) :
    sumTokens (w :: ws) = w.tokens ++ sumTokens ws := rfl

/-- A further sign multiplies the signs behind it. -/
theorem ofSwaps_count_cons (s : Sign) (ss : List Sign) :
    Sign.ofSwaps ((s :: ss).count .minus) = s * .ofSwaps (ss.count .minus) := by
  cases s with
  | plus => simp
  | minus =>
    rw [List.count_cons_self, Nat.add_comm, Sign.ofSwaps_add]
    rfl

namespace Summand

theorem sign_cons (s : Sign) (ss : List Sign) (body : Body α) :
    sign ⟨s :: ss, body⟩ = s * sign ⟨ss, body⟩ :=
  ofSwaps_count_cons s ss

theorem term_cons (s : Sign) (ss : List Sign) (body : Body α) :
    term ⟨s :: ss, body⟩ = termBehind s ⟨ss, body⟩ := by
  rw [term, sign_cons, termBehind]

theorem termBehind_cons (sign s : Sign) (ss : List Sign) (body : Body α) :
    termBehind sign ⟨s :: ss, body⟩ = termBehind (sign * s) ⟨ss, body⟩ := by
  rw [termBehind, sign_cons, ← Sign.mul_assoc, termBehind]

theorem termBehind_plus (w : Summand α) : termBehind .plus w = w.term := by
  rw [termBehind, term, Sign.plus_mul]

theorem termBehind_nil (sign : Sign) (body : Body α) :
    termBehind sign ⟨[], body⟩ = ⟨sign, body.number?, body.vectors⟩ := by
  rw [termBehind]
  cases sign <;> rfl

end Summand

/-! ## The reader on tokens -/

/-- The terms that a reader completes, and its state behind the tokens. -/
def run : State α → List (Token α) → Option (List (Term α) × State α)
  | s, [] => some ([], s)
  | s, t :: ts =>
    match s.step t with
    | .error _ => none
    | .ok (done, s') => (run s' ts).map fun r => (done.toList ++ r.1, r.2)

theorem run_cons {s s' : State α} {t : Token α} {done : Option (Term α)}
    (h : s.step t = .ok (done, s')) (ts : List (Token α)) :
    run s (t :: ts) = (run s' ts).map fun r => (done.toList ++ r.1, r.2) := by
  rw [run, h]

/-- A token that completes no term only changes the state. -/
theorem run_cons_none {s s' : State α} {t : Token α} (h : s.step t = .ok (none, s'))
    (ts : List (Token α)) : run s (t :: ts) = run s' ts := by
  rw [run_cons h]
  exact congrFun Option.map_id (run s' ts)

theorem exists_step_of_run {s s' : State α} {t : Token α} {ts : List (Token α)}
    {terms : List (Term α)} (h : run s (t :: ts) = some (terms, s')) :
    ∃ done next rest, s.step t = .ok (done, next) ∧ run next ts = some (rest, s') ∧
      terms = done.toList ++ rest := by
  rw [run] at h
  cases hstep : s.step t with
  | error fault => exact absurd h (by simp [hstep])
  | ok next =>
    obtain ⟨done, next⟩ := next
    simp only [hstep, Option.map_eq_some_iff] at h
    obtain ⟨⟨rest, last⟩, hrun, hout⟩ := h
    obtain ⟨rfl, rfl⟩ := Prod.mk.inj hout
    exact ⟨done, next, rest, rfl, hrun, rfl⟩

/-- Where tokens stand matters for errors only. -/
theorem toOption_readTerms (source : String) (s : State α) (ls : List (Lexeme α)) :
    (readTerms source s ls).toOption = (run s (ls.map Lexeme.token)).map Prod.fst := by
  induction ls generalizing s with
  | nil => rfl
  | cons l ls ih =>
    rw [readTerms, List.map_cons, run]
    cases s.step l.token with
    | error fault => rfl
    | ok next =>
      obtain ⟨done, s'⟩ := next
      have hrest := ih s'
      simp only [Option.map_map]
      cases hread : readTerms source s' ls with
      | error e =>
        rw [hread] at hrest
        rw [Option.map_eq_none_iff.mp hrest.symm]
        rfl
      | ok rest =>
        rw [hread] at hrest
        obtain ⟨r, hrun, hr⟩ := Option.map_eq_some_iff.mp hrest.symm
        rw [hrun, ← hr]
        rfl

/-- The reader has a complete term that it has not handed out yet. -/
def State.Ends (s : State α) (term : Term α) : Prop := s = .number term ∨ s = .vector term

/-! ## What the reader accepts -/

/-- What the text must still hold, up to its end, when the reader is in a state; and the terms it
    will then complete. -/
def State.Demands (s : State α) (ts : List (Token α)) (terms : List (Term α)) : Prop :=
  match s with
  | .start => ∃ ws, IsSum ws ∧ ts = sumTokens ws ∧ terms = ws.map Summand.term
  | .signed sign => ∃ w ws, Signed ws ∧ ts = Summand.tokens w ++ sumTokens ws ∧
      terms = w.termBehind sign :: ws.map Summand.term
  | .number term =>
    (∃ ws, Signed ws ∧ ts = sumTokens ws ∧ terms = term :: ws.map Summand.term) ∨
    ∃ caret v vs ws, Signed ws ∧
      ts = markToken caret :: .vector v :: wedgeTokens vs ++ sumTokens ws ∧
      terms = { term with vectors := term.vectors ++ v :: vs } :: ws.map Summand.term
  | .wedge term => ∃ v vs ws, Signed ws ∧
      ts = .vector v :: wedgeTokens vs ++ sumTokens ws ∧
      terms = { term with vectors := term.vectors ++ v :: vs } :: ws.map Summand.term
  | .vector term => ∃ vs ws, Signed ws ∧ ts = wedgeTokens vs ++ sumTokens ws ∧
      terms = { term with vectors := term.vectors ++ vs } :: ws.map Summand.term

/-- A sign multiplies the signs before it. -/
theorem demands_sign {sign s : Sign} {ts : List (Token α)} {terms : List (Term α)}
    (h : (State.signed (sign * s)).Demands ts terms) :
    (State.signed sign).Demands (signToken s :: ts) terms := by
  obtain ⟨⟨ss, body⟩, ws, hws, rfl, rfl⟩ := h
  refine ⟨⟨s :: ss, body⟩, ws, hws, rfl, ?_⟩
  rw [Summand.termBehind_cons]

/-- A sign or a body may start a summand. -/
theorem demands_of_startTerm {sign : Sign} {t : Token α} {s : State α} {ts : List (Token α)}
    {terms : List (Term α)} (h : State.startTerm sign t = .ok s) (hs : s.Demands ts terms) :
    (State.signed sign).Demands (t :: ts) terms := by
  cases t with
  | plus =>
    obtain rfl := Except.ok.inj h
    have hplus : sign = sign * .plus := by cases sign <;> rfl
    rw [hplus] at hs
    exact demands_sign hs
  | minus =>
    obtain rfl := Except.ok.inj h
    have hminus : sign.opposite = sign * .minus := by cases sign <;> rfl
    rw [hminus] at hs
    exact demands_sign hs
  | number x =>
    obtain rfl := Except.ok.inj h
    rcases hs with ⟨ws, hws, rfl, rfl⟩ | ⟨caret, v, vs, ws, hws, rfl, rfl⟩
    · refine ⟨⟨[], .number x⟩, ws, hws, rfl, ?_⟩
      rw [Summand.termBehind_nil]
      rfl
    · refine ⟨⟨[], .scaled x caret v vs⟩, ws, hws, rfl, ?_⟩
      rw [Summand.termBehind_nil]
      rfl
  | vector v =>
    obtain rfl := Except.ok.inj h
    obtain ⟨vs, ws, hws, rfl, rfl⟩ := hs
    refine ⟨⟨[], .blade v vs⟩, ws, hws, rfl, ?_⟩
    rw [Summand.termBehind_nil]
    rfl
  | _ => exact absurd h (by simp [State.startTerm])

/-- What follows a sign is a signed sum. -/
theorem signed_of_demands {s : Sign} {ts : List (Token α)} {terms : List (Term α)}
    (h : (State.signed s).Demands ts terms) :
    ∃ ws, Signed ws ∧ signToken s :: ts = sumTokens ws ∧ terms = ws.map Summand.term := by
  obtain ⟨⟨ss, body⟩, ws, hws, rfl, rfl⟩ := h
  refine ⟨⟨s :: ss, body⟩ :: ws, List.forall_mem_cons.mpr ⟨List.cons_ne_nil s ss, hws⟩, rfl, ?_⟩
  rw [List.map_cons, Summand.term_cons]

/-- Behind a complete term, only a sign starts another one. -/
theorem signed_of_endTerm {t : Token α} {s : State α} {ts : List (Token α)}
    {terms : List (Term α)} (h : State.endTerm t = .ok s) (ht : t ≠ .stop)
    (hs : s.Demands ts terms) :
    ∃ ws, Signed ws ∧ t :: ts = sumTokens ws ∧ terms = ws.map Summand.term := by
  cases t with
  | plus =>
    obtain rfl := Except.ok.inj h
    exact signed_of_demands hs
  | minus =>
    obtain rfl := Except.ok.inj h
    exact signed_of_demands hs
  | stop => exact absurd rfl ht
  | _ => exact absurd h (by simp [State.endTerm])

/-- The end of the text is demanded where a term is complete. -/
theorem demands_nil {s s' : State α} {done : Option (Term α)}
    (h : s.step .stop = .ok (done, s')) : s.Demands [] done.toList := by
  cases s with
  | start =>
    obtain ⟨rfl, -⟩ := Prod.mk.inj (Except.ok.inj h)
    exact ⟨[], signed_nil, rfl, rfl⟩
  | signed sign => exact absurd h (by simp [State.step, State.startTerm, bind, Except.bind])
  | number term =>
    obtain ⟨rfl, -⟩ := Prod.mk.inj (Except.ok.inj h)
    exact .inl ⟨[], signed_nil, rfl, rfl⟩
  | wedge term => exact absurd h (by simp [State.step])
  | vector term =>
    obtain ⟨rfl, -⟩ := Prod.mk.inj (Except.ok.inj h)
    refine ⟨[], [], signed_nil, rfl, ?_⟩
    rw [List.append_nil]
    rfl

/-- Where a sign or a body must stand, no term is completed. -/
theorem startTerm_of_step {sign : Sign} {t : Token α} {s : State α} {done : Option (Term α)}
    (h : (State.signed sign).step t = .ok (done, s)) :
    State.startTerm sign t = .ok s ∧ done = none := by
  obtain ⟨next, hstart, hnext⟩ := bind_eq_ok_iff.mp h
  obtain ⟨rfl, rfl⟩ := Prod.mk.inj (Except.ok.inj hnext)
  exact ⟨hstart, rfl⟩

/-- Behind a complete term, a token that does not go on with it must end it. -/
theorem endTerm_of_step {term : Term α} {t : Token α} {s s' : State α} {done : Option (Term α)}
    (hends : s.Ends term) (h : s.step t = .ok (done, s')) (htimes : t ≠ .times)
    (hwedge : t ≠ .wedge) : State.endTerm t = .ok s' ∧ done = some term := by
  have hstep : s.step t = (State.endTerm t >>= fun s => .ok (some term, s)) := by
    rcases hends with rfl | rfl
    · cases t with
      | times => exact absurd rfl htimes
      | wedge => exact absurd rfl hwedge
      | _ => rfl
    · cases t with
      | wedge => exact absurd rfl hwedge
      | _ => rfl
  obtain ⟨next, hend, hnext⟩ := bind_eq_ok_iff.mp (hstep.symm.trans h)
  obtain ⟨rfl, rfl⟩ := Prod.mk.inj (Except.ok.inj hnext)
  exact ⟨hend, rfl⟩

/-- At the start, all but the end is read as behind a `+`. -/
theorem step_start {t : Token α} (ht : t ≠ .stop) :
    State.start.step t = (State.signed .plus).step t := by
  cases t with
  | stop => exact absurd rfl ht
  | _ => rfl

/-- A sum may start without a sign. -/
theorem demands_start {ts : List (Token α)} {terms : List (Term α)}
    (h : (State.signed .plus).Demands ts terms) : State.start.Demands ts terms := by
  obtain ⟨w, ws, hws, rfl, rfl⟩ := h
  refine ⟨w :: ws, hws, rfl, ?_⟩
  rw [Summand.termBehind_plus, List.map_cons]

/-- What a state demands is what its step demands of the rest. -/
theorem demands_cons {s s' : State α} {t : Token α} {done : Option (Term α)}
    {ts : List (Token α)} {terms : List (Term α)} (h : s.step t = .ok (done, s'))
    (ht : t ≠ .stop) (hs : s'.Demands ts terms) : s.Demands (t :: ts) (done.toList ++ terms) := by
  cases s with
  | start =>
    rw [step_start ht] at h
    obtain ⟨hstart, rfl⟩ := startTerm_of_step h
    exact demands_start (demands_of_startTerm hstart hs)
  | signed sign =>
    obtain ⟨hstart, rfl⟩ := startTerm_of_step h
    exact demands_of_startTerm hstart hs
  | number term =>
    by_cases htimes : t = .times
    · subst htimes
      obtain ⟨rfl, rfl⟩ := Prod.mk.inj (Except.ok.inj h)
      obtain ⟨v, vs, ws, hws, rfl, rfl⟩ := hs
      exact .inr ⟨false, v, vs, ws, hws, rfl, rfl⟩
    by_cases hwedge : t = .wedge
    · subst hwedge
      obtain ⟨rfl, rfl⟩ := Prod.mk.inj (Except.ok.inj h)
      obtain ⟨v, vs, ws, hws, rfl, rfl⟩ := hs
      exact .inr ⟨true, v, vs, ws, hws, rfl, rfl⟩
    obtain ⟨hend, rfl⟩ := endTerm_of_step (.inl rfl) h htimes hwedge
    obtain ⟨ws, hws, hts, rfl⟩ := signed_of_endTerm hend ht hs
    exact .inl ⟨ws, hws, hts, rfl⟩
  | wedge term =>
    cases t with
    | vector v =>
      obtain ⟨rfl, rfl⟩ := Prod.mk.inj (Except.ok.inj h)
      obtain ⟨vs, ws, hws, rfl, rfl⟩ := hs
      refine ⟨v, vs, ws, hws, rfl, ?_⟩
      simp only [List.append_assoc, List.cons_append, List.nil_append, Option.toList_none]
    | stop => exact absurd rfl ht
    | _ => exact absurd h (by simp [State.step])
  | vector term =>
    by_cases hwedge : t = .wedge
    · subst hwedge
      obtain ⟨rfl, rfl⟩ := Prod.mk.inj (Except.ok.inj h)
      obtain ⟨v, vs, ws, hws, rfl, rfl⟩ := hs
      exact ⟨v :: vs, ws, hws, rfl, rfl⟩
    have htimes : t ≠ .times := by
      rintro rfl
      exact absurd h (by simp [State.step, State.endTerm, bind, Except.bind])
    obtain ⟨hend, rfl⟩ := endTerm_of_step (.inr rfl) h htimes hwedge
    obtain ⟨ws, hws, hts, rfl⟩ := signed_of_endTerm hend ht hs
    refine ⟨[], ws, hws, hts, ?_⟩
    rw [List.append_nil]
    rfl

/-- The reader accepts only what its state demands. -/
theorem demands_of_run {s s' : State α} {ts : List (Token α)} {terms : List (Term α)}
    (hstop : Token.stop ∉ ts) (h : run s (ts ++ [.stop]) = some (terms, s')) :
    s.Demands ts terms := by
  induction ts generalizing s terms with
  | nil =>
    obtain ⟨done, next, rest, hstep, hrest, rfl⟩ := exists_step_of_run h
    obtain ⟨rfl, -⟩ := Prod.mk.inj (Option.some.inj hrest)
    rw [List.append_nil]
    exact demands_nil hstep
  | cons t ts ih =>
    rw [List.mem_cons, not_or] at hstop
    obtain ⟨done, next, rest, hstep, hrest, rfl⟩ := exists_step_of_run h
    exact demands_cons hstep (Ne.symm hstop.1) (ih hstop.2 hrest)

/-! ## Sums are accepted -/

/-- A sign behind a complete term hands it out. -/
theorem step_signToken {s : State α} {term : Term α} (h : s.Ends term) (sign : Sign) :
    s.step (signToken sign) = .ok (some term, .signed sign) := by
  rcases h with rfl | rfl
  · cases sign <;> rfl
  · cases sign <;> rfl

/-- So does the end of the text. -/
theorem step_stop {s : State α} {term : Term α} (h : s.Ends term) :
    s.step .stop = .ok (some term, .start) := by
  rcases h with rfl | rfl
  · rfl
  · rfl

theorem run_signs (sign : Sign) (ss : List Sign) (ts : List (Token α)) :
    run (.signed sign) (ss.map signToken ++ ts) =
      run (.signed (sign * .ofSwaps (ss.count .minus))) ts := by
  induction ss generalizing sign with
  | nil =>
    have hplus : sign * Sign.plus = sign := by cases sign <;> rfl
    exact congrArg (fun s => run (.signed s) ts) hplus.symm
  | cons s ss ih =>
    have hstep : (State.signed sign).step (signToken s : Token α) =
        .ok (none, .signed (sign * s)) := by
      cases s <;> cases sign <;> rfl
    calc run (.signed sign) ((s :: ss).map signToken ++ ts)
        = run (.signed (sign * s)) (ss.map signToken ++ ts) := run_cons_none hstep _
      _ = run (.signed (sign * s * .ofSwaps (ss.count .minus))) ts := ih (sign * s)
      _ = run (.signed (sign * .ofSwaps ((s :: ss).count .minus))) ts := by
        rw [ofSwaps_count_cons, Sign.mul_assoc]

theorem run_wedges (term : Term α) (vs : List Nat) (ts : List (Token α)) :
    run (.vector term) (wedgeTokens vs ++ ts) =
      run (.vector { term with vectors := term.vectors ++ vs }) ts := by
  induction vs generalizing term with
  | nil =>
    rw [List.append_nil]
    rfl
  | cons v vs ih =>
    calc run (.vector term) (wedgeTokens (v :: vs) ++ ts)
        = run (.wedge term) (.vector v :: wedgeTokens vs ++ ts) := run_cons_none rfl _
      _ = run (.vector { term with vectors := term.vectors ++ [v] }) (wedgeTokens vs ++ ts) :=
        run_cons_none rfl _
      _ = run (.vector { term with vectors := term.vectors ++ (v :: vs) }) ts := by
        rw [ih, List.append_assoc]
        rfl

/-- Behind a body, its term is complete. -/
theorem run_body (sign : Sign) (body : Body α) (ts : List (Token α)) :
    ∃ s : State α, s.Ends ⟨sign, body.number?, body.vectors⟩ ∧
      run (.signed sign) (body.tokens ++ ts) = run s ts := by
  cases body with
  | number x => exact ⟨_, .inl rfl, run_cons_none rfl ts⟩
  | scaled x caret v vs =>
    have hmark : (State.number ⟨sign, some x, []⟩).step (markToken caret) =
        .ok (none, .wedge ⟨sign, some x, []⟩) := by
      cases caret <;> rfl
    refine ⟨.vector ⟨sign, some x, v :: vs⟩, .inr rfl, ?_⟩
    calc run (.signed sign) (.number x :: markToken caret :: .vector v :: wedgeTokens vs ++ ts)
        = run (.number ⟨sign, some x, []⟩) (markToken caret :: .vector v :: wedgeTokens vs ++ ts) :=
        run_cons_none rfl _
      _ = run (.wedge ⟨sign, some x, []⟩) (.vector v :: wedgeTokens vs ++ ts) :=
        run_cons_none hmark _
      _ = run (.vector ⟨sign, some x, [v]⟩) (wedgeTokens vs ++ ts) := run_cons_none rfl _
      _ = run (.vector ⟨sign, some x, v :: vs⟩) ts := run_wedges ⟨sign, some x, [v]⟩ vs ts
  | blade v vs =>
    refine ⟨.vector ⟨sign, none, v :: vs⟩, .inr rfl, ?_⟩
    calc run (.signed sign) (.vector v :: wedgeTokens vs ++ ts)
        = run (.vector ⟨sign, none, [v]⟩) (wedgeTokens vs ++ ts) := run_cons_none rfl _
      _ = run (.vector ⟨sign, none, v :: vs⟩) ts := run_wedges ⟨sign, none, [v]⟩ vs ts

/-- Behind a sign, a summand leaves the reader with its term, multiplied by the sign. -/
theorem run_summand (sign : Sign) (w : Summand α) (ts : List (Token α)) :
    ∃ s : State α, s.Ends (w.termBehind sign) ∧
      run (.signed sign) (w.tokens ++ ts) = run s ts := by
  obtain ⟨s, hends, hrun⟩ := run_body (sign * w.sign) w.body ts
  refine ⟨s, hends, ?_⟩
  rw [Summand.tokens, List.append_assoc, run_signs]
  exact hrun

/-- Behind a complete term, a signed sum is read up to the end of the text. -/
theorem run_sum {s : State α} {term : Term α} (h : s.Ends term) {ws : List (Summand α)}
    (hws : Signed ws) :
    run s (sumTokens ws ++ [.stop]) = some (term :: ws.map Summand.term, .start) := by
  induction ws generalizing s term with
  | nil => exact run_cons (step_stop h) []
  | cons w ws ih =>
    obtain ⟨signs, body⟩ := w
    obtain ⟨hsigns, hrest⟩ := List.forall_mem_cons.mp hws
    obtain ⟨sign, ss, rfl⟩ := List.exists_cons_of_ne_nil hsigns
    obtain ⟨s', hends, hrun⟩ := run_summand sign ⟨ss, body⟩ (sumTokens ws ++ [.stop])
    rw [← Summand.term_cons] at hends
    calc run s (sumTokens (⟨sign :: ss, body⟩ :: ws) ++ [.stop])
        = run s (signToken sign ::
            (Summand.tokens ⟨ss, body⟩ ++ (sumTokens ws ++ [.stop]))) := by
          rw [sumTokens_cons, List.append_assoc]
          rfl
      _ = (run s' (sumTokens ws ++ [.stop])).map fun r => (term :: r.1, r.2) := by
          rw [run_cons (step_signToken h sign), hrun]
          rfl
      _ = some (term :: Summand.term ⟨sign :: ss, body⟩ :: ws.map Summand.term, .start) := by
          rw [ih hends hrest]
          rfl

/-- A summand starts with a token that is not the end. -/
theorem exists_tokens_eq_cons (w : Summand α) : ∃ t ts, w.tokens = t :: ts ∧ t ≠ .stop := by
  obtain ⟨signs, body⟩ := w
  cases signs with
  | nil => cases body <;> exact ⟨_, _, rfl, by simp⟩
  | cons s ss => exact ⟨signToken s, _, rfl, by cases s <;> simp [signToken]⟩

/-- Sums are accepted from the start. -/
theorem run_start {ws : List (Summand α)} (hws : IsSum ws) :
    run .start (sumTokens ws ++ [.stop]) = some (ws.map Summand.term, .start) := by
  cases ws with
  | nil => rfl
  | cons w ws =>
    obtain ⟨s, hends, hrun⟩ := run_summand .plus w (sumTokens ws ++ [.stop])
    obtain ⟨t, ts, htokens, ht⟩ := exists_tokens_eq_cons w
    have hstart : run .start (w.tokens ++ (sumTokens ws ++ [.stop])) =
        run (.signed .plus) (w.tokens ++ (sumTokens ws ++ [.stop])) := by
      rw [htokens, List.cons_append, run, run, step_start ht]
    rw [Summand.termBehind_plus] at hends
    rw [sumTokens_cons, List.append_assoc, hstart, hrun]
    exact run_sum hends hws

/-- The reader accepts the sums, with the terms they stand for. -/
theorem run_start_eq_some_iff {ts : List (Token α)} (hstop : Token.stop ∉ ts)
    {terms : List (Term α)} :
    (run .start (ts ++ [.stop])).map Prod.fst = some terms ↔
      ∃ ws, IsSum ws ∧ ts = sumTokens ws ∧ terms = ws.map Summand.term := by
  constructor
  · intro h
    obtain ⟨⟨terms', s⟩, hrun, rfl⟩ := Option.map_eq_some_iff.mp h
    exact demands_of_run hstop hrun
  · rintro ⟨ws, hws, rfl, rfl⟩
    rw [run_start hws]
    rfl

end GeometricAlgebra.Text
