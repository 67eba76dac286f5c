/-
  GeometricAlgebra.Proofs.Text.Faults

  Where the parser fails, and how.  It stops at the first token with which the text has no
  continuation to a multivector any more, and names the fault by that token and the one before it.

    * `Viable`: tokens that an accepted text can start with.
    * `viable_of_run`, `run_of_viable`: the reader gets through exactly those.
    * `faultBehind`: the fault of a token behind another one.
    * `fault_of_step`: the reader names that fault.
    * `Clifford.parse_error_of_ofConfig`: errors of the parser.
-/

import GeometricAlgebra.Proofs.Text.Parsing

namespace GeometricAlgebra.Text

variable {α : Type}

/-! ## Continuations -/

/-- The tokens of an accepted text, its end included: those of a sum over the named vectors. -/
def Accepted (names : List String) (ts : List (Token α)) : Prop :=
  ∃ ws, IsSum ws ∧ (∀ t ∈ sumTokens ws, t.Lexed names) ∧ ts = sumTokens ws ++ [.stop]

/-- Tokens that an accepted text can start with. -/
def Viable (names : List String) (ts : List (Token α)) : Prop :=
  ∃ us, Accepted names (ts ++ us)

theorem run_append (s : State α) (ts us : List (Token α)) :
    run s (ts ++ us) = (run s ts).bind fun r => (run r.2 us).map fun q => (r.1 ++ q.1, q.2) := by
  induction ts generalizing s with
  | nil => exact (congrFun Option.map_id (run s us)).symm
  | cons t ts ih =>
    rw [List.cons_append]
    cases hstep : s.step t with
    | error fault => rw [run, run, hstep, Option.bind_none]
    | ok next =>
      obtain ⟨done, s'⟩ := next
      rw [run_cons hstep, run_cons hstep, ih]
      cases run s' ts with
      | none => rfl
      | some r => simp [Function.comp_def]

/-- What the reader gets through, it gets through from the start. -/
theorem exists_run_of_append {s : State α} {ts us : List (Token α)}
    {r : List (Term α) × State α} (h : run s (ts ++ us) = some r) : ∃ q, run s ts = some q := by
  rw [run_append] at h
  obtain ⟨q, hq, -⟩ := Option.bind_eq_some_iff.mp h
  exact ⟨q, hq⟩

/-- Every state has a continuation up to the end of the text, at most one vector long. -/
theorem exists_completion {names : List String} (hn : 0 < names.length) (s : State α) :
    ∃ us : List (Token α), (∀ t ∈ us, t.Lexed names) ∧ ∃ r, run s (us ++ [.stop]) = some r := by
  have hvector : ∀ t ∈ [(.vector 0 : Token α)], t.Lexed names :=
    List.forall_mem_singleton.mpr hn
  have hnone : ∀ t ∈ ([] : List (Token α)), t.Lexed names := fun t ht => absurd ht List.not_mem_nil
  cases s with
  | start => exact ⟨[], hnone, _, rfl⟩
  | signed sign => exact ⟨[.vector 0], hvector, _, rfl⟩
  | number term => exact ⟨[], hnone, _, rfl⟩
  | wedge term => exact ⟨[.vector 0], hvector, _, rfl⟩
  | vector term => exact ⟨[], hnone, _, rfl⟩

theorem stop_notMem_of_lexed {names : List String} {ts : List (Token α)}
    (h : ∀ t ∈ ts, t.Lexed names) : Token.stop ∉ ts :=
  fun hstop => h _ hstop

/-- What the reader gets through can go on to a multivector. -/
theorem viable_of_run {names : List String} (hn : 0 < names.length) {ts : List (Token α)}
    (hts : ∀ t ∈ ts, t.Lexed names) {r : List (Term α) × State α} (h : run .start ts = some r) :
    Viable names ts := by
  obtain ⟨us, hus, q, hq⟩ := exists_completion hn r.2
  have hlexed : ∀ t ∈ ts ++ us, t.Lexed names := List.forall_mem_append.mpr ⟨hts, hus⟩
  have hrun : run .start (ts ++ us ++ [.stop]) = some (r.1 ++ q.1, q.2) := by
    rw [List.append_assoc, run_append, h, Option.bind_some, hq, Option.map_some]
  obtain ⟨ws, hsum, hws, -⟩ := demands_of_run (stop_notMem_of_lexed hlexed) hrun
  refine ⟨us ++ [.stop], ws, hsum, hws ▸ hlexed, ?_⟩
  rw [← List.append_assoc, hws]

/-- The reader gets through what can go on to a multivector. -/
theorem run_of_viable {names : List String} {ts : List (Token α)} (h : Viable names ts) :
    ∃ r, run .start ts = some r := by
  obtain ⟨us, ws, hsum, -, hws⟩ := h
  have hrun := run_start hsum
  rw [← hws] at hrun
  exact exists_run_of_append hrun

/-! ## The fault of a token -/

/-- What should have stood behind a token, or at the start of the text. -/
def expectedBehind : Option (Token α) → ParseFault
  | some .times | some .wedge => .expectedBasisVector
  | some (.number _) | some (.vector _) => .expectedSign
  | _ => .unexpectedToken

/-- The fault of a token behind another one, or at the start of the text. -/
def faultBehind (previous : Option (Token α)) : Token α → ParseFault
  | .badCharacter => .badCharacter
  | .badNumber => .badNumber
  | .badIdentifier => .badIdentifier
  | _ => expectedBehind previous

/-- The kind of a state is decided by the token before it. -/
def State.Behind (s : State α) : Option (Token α) → Prop
  | none | some .stop => s = .start
  | some .plus | some .minus => ∃ sign, s = .signed sign
  | some (.number _) => ∃ term, s = .number term
  | some (.vector _) => ∃ term, s = .vector term
  | some .times | some .wedge => ∃ term, s = .wedge term
  | some .badCharacter | some .badNumber | some .badIdentifier => False

theorem behind_of_startTerm {sign : Sign} {t : Token α} {s : State α}
    (h : State.startTerm sign t = .ok s) : s.Behind (some t) := by
  cases t with
  | plus | minus | number x | vector i =>
    obtain rfl := Except.ok.inj h
    exact ⟨_, rfl⟩
  | _ => exact absurd h (by simp [State.startTerm])

theorem behind_of_endTerm {t : Token α} {s : State α} (h : State.endTerm t = .ok s) :
    s.Behind (some t) := by
  cases t with
  | plus | minus =>
    obtain rfl := Except.ok.inj h
    exact ⟨_, rfl⟩
  | stop =>
    obtain rfl := Except.ok.inj h
    rfl
  | _ => exact absurd h (by simp [State.endTerm])

/-- Behind a complete term, whatever goes on with it or ends it decides the state. -/
theorem behind_of_step_of_ends {s s' : State α} {term : Term α} {t : Token α}
    {done : Option (Term α)} (hends : s.Ends term) (h : s.step t = .ok (done, s')) :
    s'.Behind (some t) := by
  by_cases htimes : t = .times
  · subst htimes
    rcases hends with rfl | rfl
    · obtain ⟨-, rfl⟩ := Prod.mk.inj (Except.ok.inj h)
      exact ⟨_, rfl⟩
    · exact absurd h (by simp [State.step, State.endTerm, bind, Except.bind])
  by_cases hwedge : t = .wedge
  · subst hwedge
    rcases hends with rfl | rfl
    · obtain ⟨-, rfl⟩ := Prod.mk.inj (Except.ok.inj h)
      exact ⟨_, rfl⟩
    · obtain ⟨-, rfl⟩ := Prod.mk.inj (Except.ok.inj h)
      exact ⟨_, rfl⟩
  exact behind_of_endTerm (endTerm_of_step hends h htimes hwedge).1

theorem behind_of_step {s s' : State α} {t : Token α} {done : Option (Term α)}
    (h : s.step t = .ok (done, s')) : s'.Behind (some t) := by
  cases s with
  | start =>
    by_cases hstop : t = .stop
    · subst hstop
      obtain ⟨-, rfl⟩ := Prod.mk.inj (Except.ok.inj h)
      rfl
    · rw [step_start hstop] at h
      exact behind_of_startTerm (startTerm_of_step h).1
  | signed sign => exact behind_of_startTerm (startTerm_of_step h).1
  | number term => exact behind_of_step_of_ends (.inl rfl) h
  | wedge term =>
    cases t with
    | vector i =>
      obtain ⟨-, rfl⟩ := Prod.mk.inj (Except.ok.inj h)
      exact ⟨_, rfl⟩
    | _ => exact absurd h (by simp [State.step])
  | vector term => exact behind_of_step_of_ends (.inr rfl) h

/-- Along a run, the state is that behind the last token. -/
theorem behind_of_run {ts : List (Token α)} {r : List (Term α) × State α}
    (h : run .start ts = some r) : r.2.Behind ts.getLast? := by
  rcases List.eq_nil_or_concat' ts with rfl | ⟨us, t, rfl⟩
  · exact (congrArg Prod.snd (Option.some.inj h)).symm
  · rw [run_append] at h
    obtain ⟨q, -, hq⟩ := Option.bind_eq_some_iff.mp h
    obtain ⟨⟨terms, s⟩, hlast, hr⟩ := Option.map_eq_some_iff.mp hq
    obtain ⟨done, next, rest, hstep, hend, -⟩ := exists_step_of_run hlast
    obtain rfl : next = s := congrArg Prod.snd (Option.some.inj hend)
    rw [List.getLast?_append, List.getLast?_singleton, ← hr]
    exact behind_of_step hstep

/-- What should stand behind a state. -/
def State.expected : State α → ParseFault
  | start | signed _ => .unexpectedToken
  | number _ | vector _ => .expectedSign
  | wedge _ => .expectedBasisVector

theorem State.Behind.expected_eq {s : State α} {previous : Option (Token α)}
    (h : s.Behind previous) : s.expected = expectedBehind previous := by
  cases previous with
  | none =>
    obtain rfl := h
    rfl
  | some t =>
    cases t with
    | stop =>
      obtain rfl := h
      rfl
    | badCharacter | badNumber | badIdentifier => exact h.elim
    | _ =>
      obtain ⟨_, rfl⟩ := h
      rfl

theorem fault_of_startTerm {sign : Sign} {t : Token α} {fault : ParseFault}
    (h : State.startTerm sign t = .error fault) : fault = faultOf t .unexpectedToken := by
  cases t with
  | plus | minus | number x | vector i => exact absurd h (by simp [State.startTerm])
  | _ => exact (Except.error.inj h).symm

theorem fault_of_endTerm {t : Token α} {fault : ParseFault}
    (h : State.endTerm t = .error fault) : fault = faultOf t .expectedSign := by
  cases t with
  | plus | minus | stop => exact absurd h (by simp [State.endTerm])
  | _ => exact (Except.error.inj h).symm

theorem bind_eq_error_iff {ε β γ : Type} {x : Except ε β} {f : β → γ} {e : ε} :
    (x >>= fun b => (.ok (f b) : Except ε γ)) = .error e ↔ x = .error e := by
  cases x with
  | error e' => simp [bind, Except.bind]
  | ok b => simp [bind, Except.bind]

/-- A token that a state cannot take is a fault of its own or misses what should stand there. -/
theorem fault_of_step {s : State α} {t : Token α} {fault : ParseFault}
    (h : s.step t = .error fault) : fault = faultOf t s.expected := by
  cases s with
  | start =>
    by_cases hstop : t = .stop
    · subst hstop
      exact absurd h (by simp [State.step])
    · rw [step_start hstop] at h
      exact fault_of_startTerm (bind_eq_error_iff.mp h)
  | signed sign => exact fault_of_startTerm (bind_eq_error_iff.mp h)
  | number term =>
    cases t with
    | times | wedge => exact absurd h (by simp [State.step])
    | _ => exact fault_of_endTerm (bind_eq_error_iff.mp h)
  | wedge term =>
    cases t with
    | vector i => exact absurd h (by simp [State.step])
    | _ => exact (Except.error.inj h).symm
  | vector term =>
    cases t with
    | wedge => exact absurd h (by simp [State.step])
    | _ => exact fault_of_endTerm (bind_eq_error_iff.mp h)

theorem faultOf_eq_faultBehind (previous : Option (Token α)) (t : Token α) :
    faultOf t (expectedBehind previous) = faultBehind previous t := by
  cases t <;> rfl

/-! ## Errors -/

/-- The reader stops at the first token that its state cannot take. -/
theorem exists_step_of_readTerms {source : String} {s : State α} {ls : List (Lexeme α)}
    {e : ParseError} (h : readTerms source s ls = .error e) :
    ∃ before l after r, ls = before ++ l :: after ∧
      run s (before.map Lexeme.token) = some r ∧ r.2.step l.token = .error e.fault ∧
      e = { fault := e.fault, line := l.line, column := l.column, source := source } := by
  induction ls generalizing s with
  | nil => exact absurd h (by simp [readTerms])
  | cons l ls ih =>
    rw [readTerms] at h
    cases hstep : s.step l.token with
    | error fault =>
      rw [hstep] at h
      obtain rfl := Except.error.inj h
      exact ⟨[], l, ls, ([], s), rfl, rfl, hstep, rfl⟩
    | ok next =>
      obtain ⟨done, s'⟩ := next
      simp only [hstep] at h
      obtain ⟨before, l', after, r, rfl, hrun, hfault, he⟩ := ih (bind_eq_error_iff.mp h)
      refine ⟨l :: before, l', after, (done.toList ++ r.1, r.2), rfl, ?_, hfault, he⟩
      rw [List.map_cons, run_cons hstep, hrun, Option.map_some]

end GeometricAlgebra.Text

namespace GeometricAlgebra.Clifford

open Text

/-- An error of the parser stands at the first token with which the text has no continuation to a
    multivector any more, and its fault is that of this token behind the one before it. -/
theorem parse_error_of_ofConfig {α : Type} [Numeral α] {c : Config α} {A : Clifford α}
    (h : ofConfig c = .ok A) {text : String} {e : ParseError} (herror : A.parse text = .error e) :
    ∃ before l after, (lexemes A.config.vectors text : List (Lexeme α)) = before ++ l :: after ∧
      (∀ ts, ts <+: before.map Lexeme.token → Viable A.config.vectors ts) ∧
      ¬ Viable A.config.vectors (before.map Lexeme.token ++ [l.token]) ∧
      e = { fault := faultBehind (before.map Lexeme.token).getLast? l.token
            line := l.line
            column := l.column
            source := "string" } := by
  have hnames : 0 < A.config.vectors.length := by
    rw [length_vectors_of_ofConfig h]
    exact dimension_pos_of_ofConfig h
  obtain ⟨before, l, after, r, hls, hrun, hstep, he⟩ :=
    exists_step_of_readTerms (bind_eq_error_iff.mp herror)
  refine ⟨before, l, after, hls, ?_, ?_, ?_⟩
  · rintro ts ⟨us, hus⟩
    obtain ⟨q, hq⟩ := exists_run_of_append (hus ▸ hrun)
    refine viable_of_run hnames (fun t ht => lexed_of_mem_tokens A.config.vectors text ?_) hq
    -- a token follows behind them, so they stand before the end of the text
    have htokens := congrArg List.dropLast (map_token_lexemes A.config.vectors text (α := α))
    rw [hls, List.map_append, ← hus, List.append_assoc, List.dropLast_concat,
      List.dropLast_append_of_ne_nil (by simp)] at htokens
    rw [← htokens]
    exact List.mem_append_left _ ht
  · intro hviable
    obtain ⟨q, hq⟩ := run_of_viable hviable
    rw [run_append, hrun, Option.bind_some] at hq
    obtain ⟨p, hp, -⟩ := Option.map_eq_some_iff.mp hq
    obtain ⟨done, next, rest, hok, -⟩ := exists_step_of_run hp
    rw [hstep] at hok
    exact absurd hok (by simp)
  · rw [he, ← faultOf_eq_faultBehind, ← (behind_of_run hrun).expected_eq, ← fault_of_step hstep]

/-- A `*` behind a sign, in the second line. -/
theorem parse_error_e3ga : ∃ A : Clifford Float, ofConfig Config.e3ga = .ok A ∧
    A.parse "e2^e1 -\n * e3" = .error ⟨.unexpectedToken, 2, 2, "string"⟩ ∧
    ∃ (before : List (Lexeme Float)) (l : Lexeme Float) (after : List (Lexeme Float)),
      lexemes A.config.vectors "e2^e1 -\n * e3" = before ++ l :: after ∧
      Viable A.config.vectors (before.map Lexeme.token) ∧
      ¬ Viable A.config.vectors (before.map Lexeme.token ++ [l.token]) ∧
      (l.line, l.column) = (2, 2) := by
  have horder : (Config.e3ga : Config Float).basisOrder =
      .ok [[], [0], [1], [2], [0, 1], [1, 2], [2, 0], [0, 1, 2]] := by decide +kernel
  have hA := ofConfig_eq_ok_iff.mpr ⟨_, horder, rfl⟩
  have hread : readTerms "string" .start
      (lexemes (Config.e3ga : Config Float).vectors "e2^e1 -\n * e3" : List (Lexeme Float)) =
      .error ⟨.unexpectedToken, 2, 2, "string"⟩ := by
    with_unfolding_all rfl
  obtain ⟨before, l, after, hls, hbefore, hl, he⟩ :=
    parse_error_of_ofConfig hA (bind_eq_error_iff.mpr hread)
  obtain ⟨-, hline, hcolumn, -⟩ := ParseError.mk.inj he
  exact ⟨_, hA, bind_eq_error_iff.mpr hread, before, l, after, hls, hbefore _ List.prefix_rfl, hl,
    congrArg₂ Prod.mk hline.symm hcolumn.symm⟩

end GeometricAlgebra.Clifford
