import EmojiScript.Proofs.Parser.Completeness
import EmojiScript.Proofs.Parser.Steps

namespace EmojiScript

open Grammar

/-!
# Faults are found as early as can be

What a parser reads before it fails begins a program.  It fails at the first token with which no
program goes on, or behind the last one where the tokens only begin a program.  The limits are the
exception: they are met where a term is about to begin, and the grammar alone would go on there.

* `UnderWay`, `TermDue` — the statement that some kinds end in, and places where a term begins.
* `Reading.Steps.follows` — what is read are whole statements and the beginning of one.
* `parse_error_earliest` — the faults of lists of tokens.
-/

namespace Grammar

variable {read current : List Kind}

/-- Some kinds are a program and, behind it, those of a statement that has not come to its end. -/
def UnderWay (read current : List Kind) : Prop :=
  Kind.semicolon ∉ current ∧ ∃ before, Derives .program before ∧ read = before ++ current

/-- Between statements nothing of one is under way. -/
theorem underWay_nil (h : Derives .program read) : UnderWay read [] :=
  ⟨List.not_mem_nil, read, h, (List.append_nil read).symm⟩

/-- Anything but a semicolon stays within the statement. -/
theorem UnderWay.concat {kind : Kind} (h : UnderWay read current) (hkind : kind ≠ .semicolon) :
    UnderWay (read ++ [kind]) (current ++ [kind]) := by
  obtain ⟨hcurrent, before, hbefore, rfl⟩ := h
  refine ⟨?_, before, hbefore, List.append_assoc ..⟩
  simpa using ⟨hcurrent, hkind.symm⟩

/-- Some kinds begin a program, and it can go on with a term and with nothing else. -/
def TermDue (read : List Kind) : Prop :=
  ∀ kind, Viable (read ++ [kind]) ↔ beginsTerm kind = true

theorem termDue_of_walk {depth : Nat}
    (h : Place.statement.walk read = some (.operand depth)) : TermDue read := by
  intro kind
  rw [viable_concat_iff h]
  cases kind <;> simp [Place.next, beginsTerm]

/-- Only behind `#` does the grammar go on with a semicolon. -/
theorem Place.eq_semicolon_of_next {place place' : Place}
    (h : place.next .semicolon = some place') : place = .semicolon := by
  cases place with
  | operator depth => cases depth <;> cases h
  | semicolon => rfl
  | _ => cases h

end Grammar

/-! ### What was read -/

namespace Mode

theorem eq_statement_of_place {mode : Mode} (h : mode.place = .statement) : mode = .statement := by
  cases mode with
  | statement => rfl
  | _ => cases h

theorem exists_semicolon_of_place {mode : Mode} (h : mode.place = .semicolon) :
    ∃ whole, mode = .semicolon whole := by
  cases mode with
  | semicolon whole => exact ⟨whole, rfl⟩
  | _ => cases h

/-- Only where a term has to begin may a statement have too many. -/
theorem exists_operand_of_expectation {mode : Mode} (h : mode.expectation = .fewerTerms) :
    ∃ formula pending?, mode = .operand formula pending? ∧ maxTerms ≤ formula.terms := by
  cases mode with
  | operand formula pending? =>
    refine ⟨formula, pending?, rfl, Nat.le_of_not_lt fun hterms => ?_⟩
    rw [expectation, if_pos hterms] at h
    cases h
  | operator formula left =>
    have hother : (if formula.groups.isEmpty then Expectation.hash else .closeParen) =
      .fewerTerms := h
    split at hother <;> cases hother
  | _ => cases h

end Mode

namespace Reading

variable {reading last : Reading} {earlier read : List Token}

/-- Some tokens lead to a reading: whole statements, and those that lead to its mode. -/
def Follows (reading : Reading) (read : List Token) : Prop :=
  ∃ current : List Token, UnderWay (read.map Token.kind) (current.map Token.kind) ∧
    reading.mode.Reads current

/-- One more token. -/
theorem Follows.step {token : Token} (h : reading.Follows earlier)
    (hwalk : Place.statement.walk (earlier.map Token.kind) = some reading.mode.place)
    (hstep : reading.step 0 token = .ok last) : last.Follows (earlier ++ [token]) := by
  have hplace := (place_of_step hstep).1
  obtain ⟨done, mode⟩ := reading
  obtain ⟨current, hunderWay, hreads⟩ := h
  rcases step_cases hstep with ⟨whole, rfl, hkind, rfl⟩ | ⟨mode', hnext, rfl⟩
  · -- a statement ends: all that was read is a program
    refine ⟨[], underWay_nil ?_, .statement⟩
    rw [derives_program_iff_walk, List.map_append, Place.walk_append_of_walk hwalk,
      List.map_singleton, hkind]
    rfl
  · have hkind : token.kind ≠ .semicolon := by
      intro hkind
      rw [hkind] at hplace
      obtain ⟨whole, rfl⟩ := Mode.exists_semicolon_of_place (Place.eq_semicolon_of_next hplace)
      cases hnext
    refine ⟨current ++ [token], ?_, hreads.next hnext⟩
    simpa using hunderWay.concat hkind

/-- What is read are whole statements and the beginning of one. -/
theorem Steps.follows (h : Steps 0 reading read last) (hfollows : reading.Follows earlier)
    (hwalk : Place.statement.walk (earlier.map Token.kind) = some reading.mode.place) :
    last.Follows (earlier ++ read) := by
  induction h generalizing earlier with
  | nil => rwa [List.append_nil]
  | @cons reading next last token rest hstep _ ih =>
    have hwalk' : Place.statement.walk ((earlier ++ [token]).map Token.kind) =
        some next.mode.place := by
      rw [List.map_append, Place.walk_append_of_walk hwalk, List.map_singleton,
        Place.walk_cons_of_next (place_of_step hstep).1, Place.walk_nil]
    have hlast := ih (hfollows.step hwalk hstep) hwalk'
    rwa [List.append_assoc] at hlast

end Reading

/-! ### Limits -/

/-- Behind some kinds a term is about to begin, in a statement that holds so many terms and has so
many groups open. -/
def LimitDue (read : List Kind) (terms depth : Nat) : Prop :=
  TermDue read ∧ ∃ current, UnderWay read current ∧ termCount (formulaOf current) = terms ∧
    (formulaOf current).count .openParen = (formulaOf current).count .closeParen + depth

/-- The counters of a formula under way say how much of the limits is used up. -/
theorem Reading.Steps.limitDue {last : Reading} {read : List Token} {formula : Unfinished}
    {pending? : Option Pending} (h : Steps 0 {} read last)
    (hmode : last.mode = .operand formula pending?) :
    LimitDue (read.map Token.kind) formula.terms formula.groups.length ∧
      formula.terms ≤ maxTerms ∧ formula.groups.length ≤ maxNesting := by
  have hwalk : Place.statement.walk (read.map Token.kind) = some last.mode.place := h.walk
  have hstart : ({} : Reading).Follows [] := ⟨[], underWay_nil .done, .statement⟩
  obtain ⟨current, hunderWay, hreads⟩ := h.follows hstart rfl
  rw [hmode] at hreads hwalk
  cases hreads with
  | operand hbefore _ _ hcounts =>
    refine ⟨⟨termDue_of_walk hwalk, _, hunderWay, ?_⟩, hcounts.terms_le, hcounts.groups_length_le⟩
    rw [hbefore.formulaOf_append]
    exact ⟨hcounts.terms, hcounts.depth⟩

/-- A statement that holds as many terms as it may cannot begin the term that is due. -/
theorem Reading.Steps.limitDue_terms {last : Reading} {read : List Token} {formula : Unfinished}
    {pending? : Option Pending} (h : Steps 0 {} read last)
    (hmode : last.mode = .operand formula pending?) (hmax : maxTerms ≤ formula.terms) :
    ∃ depth, LimitDue (read.map Token.kind) maxTerms depth := by
  obtain ⟨hdue, hle, _⟩ := h.limitDue hmode
  rw [Nat.le_antisymm hle hmax] at hdue
  exact ⟨_, hdue⟩

/-! ### Faults -/

/-- What a fault says of the tokens that were read and of those that are left. -/
structure Earliest (read rest : List Token) (expected : Expectation) : Prop where
  /-- What was read begins a program. -/
  viable : Viable (read.map Token.kind)
  /-- Where the tokens end, they are no program. -/
  ended : expected ≠ .fewerTerms → expected ≠ .fewerParens → rest = [] →
    ¬ Derives .program (read.map Token.kind)
  /-- No program goes on with the next token. -/
  refused : expected ≠ .fewerTerms → expected ≠ .fewerParens → ∀ token more, rest = token :: more →
    ¬ Viable ((read ++ [token]).map Token.kind)
  /-- A term is about to begin, in a statement that holds as many as it may. -/
  terms : expected = .fewerTerms → ∃ depth, LimitDue (read.map Token.kind) maxTerms depth
  /-- A group is about to begin where as many are open as may be. -/
  nesting : expected = .fewerParens → ∃ token more terms, rest = token :: more ∧
    token.kind = .openParen ∧ LimitDue (read.map Token.kind) terms maxNesting

namespace Reading.Steps

variable {last : Reading} {read : List Token} {expected : Expectation}

/-- The tokens end within a statement. -/
theorem earliest_of_missing? (h : Steps 0 {} read last) (hmissing : last.missing? = some expected) :
    Earliest read [] expected := by
  have hwalk : Place.statement.walk (read.map Token.kind) = some last.mode.place := h.walk
  have hexpected := eq_expectation_of_missing? hmissing
  constructor
  case viable => exact viable_iff.mpr ⟨_, hwalk⟩
  case ended =>
    intro _ _ _ hderives
    -- a program ends between statements, where nothing is missing
    have hplace := Option.some.inj (hwalk.symm.trans (derives_program_iff_walk.mp hderives))
    rw [missing?, Mode.eq_statement_of_place hplace] at hmissing
    cases hmissing
  case refused => exact fun _ _ _ _ hrest => nomatch hrest
  case terms =>
    intro hterms
    obtain ⟨formula, pending?, hmode, hmax⟩ :=
      Mode.exists_operand_of_expectation (hexpected.symm.trans hterms)
    exact h.limitDue_terms hmode hmax
  case nesting =>
    intro hnesting
    exact absurd (hexpected.symm.trans hnesting) last.mode.expectation_ne_fewerParens

/-- A token is refused. -/
theorem earliest_of_error {token : Token} (h : Steps 0 {} read last)
    (hstep : last.step 0 token = .error expected) (more : List Token) :
    Earliest read (token :: more) expected := by
  have hwalk : Place.statement.walk (read.map Token.kind) = some last.mode.place := h.walk
  have houtcome := outcome_step 0 last token
  rw [hstep] at houtcome
  constructor
  case viable => exact viable_iff.mpr ⟨_, hwalk⟩
  case ended => exact fun _ _ hrest => nomatch hrest
  case refused =>
    rintro hterms hnesting _ _ ⟨⟩
    cases houtcome with
    | refused hnext =>
      rw [List.map_append, List.map_singleton, viable_concat_iff hwalk, hnext]
      rintro ⟨_, ⟨⟩⟩
    | tooManyTerms => exact absurd rfl hterms
    | tooDeep => exact absurd rfl hnesting
  case terms =>
    rintro rfl
    cases houtcome with
    | refused _ _ hother => exact absurd rfl hother
    | tooManyTerms hmode hmax => exact h.limitDue_terms hmode hmax
  case nesting =>
    rintro rfl
    cases houtcome with
    | refused _ hexpected => exact absurd hexpected.symm last.mode.expectation_ne_fewerParens
    | tooDeep hmode hopen hmax =>
      obtain ⟨hdue, _, hle⟩ := h.limitDue hmode
      rw [Nat.zero_add] at hmax
      rw [Nat.le_antisymm hle hmax] at hdue
      exact ⟨token, more, _, rfl, hopen, hdue⟩

end Reading.Steps

/-- **Earliest faults.** A list of tokens that is no program, or exceeds a limit, is read up to some
token or to its end.  What was read begins a program.  If no limit is met, no program goes on with
the token at which the fault is reported, and where the tokens ended they are no program.  If one
is, a term is about to begin there in a statement that holds as many as it may, or a group where as
many are open as may be. -/
theorem parse_error_earliest {tokens : List Token} {fault : Fault}
    (h : parse tokens = .error fault) :
    ∃ read rest expected, tokens = read ++ rest ∧
      (Parser.ofTokens tokens).parse.2.cursor = read.length ∧
      fault = .parse ((Parser.ofTokens tokens).faultLocation rest) expected ∧
      Earliest read rest expected := by
  obtain ⟨read, last, hsteps, ⟨rfl, hrun⟩ | ⟨token, more, expected, rfl, hstep, hrun⟩⟩ :=
    Reading.run_cases 0 {} tokens
  · rw [parse_eq_run, hrun] at h
    cases hmissing : last.missing? with
    | none =>
      rw [hmissing] at h
      cases h
    | some expected =>
      rw [hmissing] at h
      refine ⟨tokens, [], expected, (List.append_nil tokens).symm, ?_, (Except.error.inj h).symm,
        hsteps.earliest_of_missing? hmissing⟩
      show tokens.length - (Reading.run 0 {} tokens).rest.length = _
      rw [hrun]
      rfl
  · rw [parse_eq_run, hrun] at h
    refine ⟨read, token :: more, expected, rfl, ?_, (Except.error.inj h).symm,
      hsteps.earliest_of_error hstep more⟩
    show (read ++ token :: more).length - (Reading.run 0 {} (read ++ token :: more)).rest.length = _
    rw [hrun, List.length_append, Nat.add_sub_cancel]

/-- The tokens of `print (1#;`. -/
def unclosedGroup : List Token :=
  [⟨.print, "print", ⟨0, 1⟩⟩, ⟨.openParen, "(", ⟨6, 1⟩⟩, ⟨.number, "1", ⟨7, 1⟩⟩,
   ⟨.hash, "#", ⟨8, 1⟩⟩, ⟨.semicolon, ";", ⟨9, 1⟩⟩]

theorem parse_unclosedGroup :
    parse unclosedGroup = .error (.parse ⟨8, 1⟩ .closeParen) ∧
      Viable [.print, .openParen, .number] ∧ ¬ Viable [.print, .openParen, .number, .hash] := by
  have hparse : parse unclosedGroup = .error (.parse ⟨8, 1⟩ .closeParen) := rfl
  obtain ⟨read, rest, expected, htokens, hcursor, hfault, hearliest⟩ := parse_error_earliest hparse
  have hlength : read.length = 3 := hcursor.symm
  have hread : read = unclosedGroup.take 3 := by rw [htokens, List.take_left' hlength]
  have hrest : rest = unclosedGroup.drop 3 := by rw [htokens, List.drop_left' hlength]
  obtain ⟨_, rfl⟩ := Fault.parse.inj hfault
  subst hread
  exact ⟨hparse, hearliest.viable, hearliest.refused nofun nofun _ _ hrest⟩

end EmojiScript
