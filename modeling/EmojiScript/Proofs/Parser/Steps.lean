import EmojiScript.Proofs.Grammar.Place
import EmojiScript.Proofs.Parser.Relocation
import EmojiScript.Proofs.Parser.Soundness

namespace EmojiScript

open Grammar

/-!
# The steps of a reading

A mode is at a place of the grammar, and a step leads from place to place as the grammar does.  A
token is refused because the grammar refuses its kind, or because of one of the two limits.
Whatever stopped a reading, the tokens before are steps, each from the reading that the one before
it left.

* `Mode.place` — the place of a mode.
* `Reading.Outcome`, `Reading.outcome_step` — all that a step can come to.
* `Reading.Steps`, `Reading.run_cases` — the steps of a reading, and where it stops.
-/

/-! ### Places of modes -/

/-- The place of the grammar that a mode is at. -/
def Mode.place : Mode → Place
  | statement => .statement
  | equals _ => .equals
  | aliasName _ => .aliasName
  | aliasValue .. => .aliasValue
  | operand formula _ => .operand formula.groups.length
  | operator formula _ => .operator formula.groups.length
  | hash _ => .hash
  | semicolon _ => .semicolon

/-- The groups that are open where reading stops are those that still count, and the one that lacks
its closing parenthesis. -/
theorem Mode.unclosed_add (mode : Mode) :
    mode.unclosed + (if mode.expectation = .closeParen then 1 else 0) = mode.place.depth := by
  cases mode with
  | operand formula pending? =>
    have hother : (operand formula pending?).expectation ≠ .closeParen := by
      show (if formula.terms < maxTerms then Expectation.operand else .fewerTerms) ≠ .closeParen
      split <;> decide
    rw [if_neg hother]
    rfl
  | operator formula _ =>
    cases hgroups : formula.groups with
    | nil => simp [unclosed, expectation, place, Place.depth, hgroups]
    | cons => simp [unclosed, expectation, place, Place.depth, hgroups]
  | _ => rfl

/-- That groups are nested too deep is never found before a token. -/
theorem Mode.expectation_ne_fewerParens (mode : Mode) : mode.expectation ≠ .fewerParens := by
  cases mode with
  | operand formula pending? =>
    show (if formula.terms < maxTerms then Expectation.operand else .fewerTerms) ≠ .fewerParens
    split <;> decide
  | operator formula left =>
    show (if formula.groups.isEmpty then Expectation.hash else .closeParen) ≠ .fewerParens
    split <;> decide
  | _ => nofun

namespace Grammar.Place

theorem next_equals (kind : Kind) :
    equals.next kind = if kind = .equals then some (operand 0) else none := by
  cases kind <;> rfl

theorem next_aliasName (kind : Kind) :
    aliasName.next kind = if kind = .word then some aliasValue else none := by
  cases kind <;> rfl

theorem next_hash (kind : Kind) :
    hash.next kind = if kind = .hash then some semicolon else none := by
  cases kind <;> rfl

theorem next_semicolon (kind : Kind) :
    semicolon.next kind = if kind = .semicolon then some statement else none := by
  cases kind <;> rfl

theorem next_aliasValue (kind : Kind) :
    aliasValue.next kind = (Leaf.ofAliasValue? kind).map fun _ => hash := by
  cases kind <;> rfl

theorem next_operand (depth : Nat) (kind : Kind) :
    (operand depth).next kind =
      if kind = .openParen then some (operand (depth + 1))
      else (Leaf.ofTerm? kind).map fun _ => operator depth := by
  cases kind <;> rfl

theorem next_operator_of_sign {depth : Nat} {kind : Kind} {op : Arithmetic}
    (h : Arithmetic.ofKind? kind = some op) : (operator depth).next kind = some (operand depth) := by
  rw [Arithmetic.ofKind?_eq_some_iff.mp h]
  cases op <;> cases depth <;> rfl

theorem next_operator_zero {kind : Kind} (h : Arithmetic.ofKind? kind = none) :
    (operator 0).next kind = if kind = .hash then some semicolon else none := by
  cases kind <;> first | rfl | cases h

theorem next_operator_succ (depth : Nat) {kind : Kind} (h : Arithmetic.ofKind? kind = none) :
    (operator (depth + 1)).next kind =
      if kind = .closeParen then some (operator depth) else none := by
  cases kind <;> first | rfl | cases h

end Grammar.Place

/-! ### One step -/

namespace Reading

variable {base : Nat} {reading : Reading} {token : Token}

/-- What a step comes to, as the grammar and the limits see it. -/
inductive Outcome (base : Nat) (reading : Reading) (token : Token) :
    Except Expectation Reading → Prop where
  /-- The grammar goes on with the kind of the token, and the nesting stays within its limit. -/
  | goesOn {next : Reading} : reading.mode.place.next token.kind = some next.mode.place →
      (base + reading.mode.place.depth ≤ maxNesting → base + next.mode.place.depth ≤ maxNesting) →
      Outcome base reading token (.ok next)
  /-- The grammar does not go on with the kind of the token. -/
  | refused {expected : Expectation} : reading.mode.place.next token.kind = none →
      expected = reading.mode.expectation → expected ≠ .fewerTerms →
      Outcome base reading token (.error expected)
  /-- A term has to begin, but the statement holds as many as it may. -/
  | tooManyTerms {formula : Unfinished} {pending? : Option Pending} :
      reading.mode = .operand formula pending? → maxTerms ≤ formula.terms →
      Outcome base reading token (.error .fewerTerms)
  /-- A group begins where as many are open as may be. -/
  | tooDeep {formula : Unfinished} {pending? : Option Pending} :
      reading.mode = .operand formula pending? → token.kind = .openParen →
      maxNesting ≤ base + formula.groups.length → Outcome base reading token (.error .fewerParens)

/-- The outcome of a token where a term has to begin and may. -/
theorem outcome_term {formula : Unfinished} (hterms : formula.terms < maxTerms) (done : List Node)
    (pending? : Option Pending) :
    Outcome base ⟨done, .operand formula pending?⟩ token
      ((Mode.term base formula pending? token).map fun mode => ⟨done, mode⟩) := by
  unfold Mode.term
  by_cases hopen : token.kind = .openParen
  · rw [if_pos hopen]
    by_cases hnest : base + formula.groups.length < maxNesting
    · rw [if_pos hnest]
      refine .goesOn ?_ fun _ => ?_
      · show (Place.operand _).next token.kind = _
        rw [Place.next_operand, if_pos hopen]
        rfl
      · show base + (formula.groups.length + 1) ≤ maxNesting
        omega
    · rw [if_neg hnest]
      exact .tooDeep rfl hopen (by omega)
  · rw [if_neg hopen]
    have hnext : (Place.operand formula.groups.length).next token.kind = _ := Place.next_operand _ _
    rw [if_neg hopen] at hnext
    cases hform : Leaf.ofTerm? token.kind with
    | some form =>
      rw [hform] at hnext
      exact .goesOn hnext id
    | none =>
      rw [hform] at hnext
      have hexpected : (Mode.operand formula pending?).expectation = .operand := if_pos hterms
      exact .refused hnext hexpected.symm nofun

/-- The outcome of a token where a term has ended. -/
theorem outcome_afterTerm (formula : Unfinished) (done : List Node) (left : Node) :
    Outcome base ⟨done, .operator formula left⟩ token
      ((Mode.afterTerm formula left token).map fun mode => ⟨done, mode⟩) := by
  obtain ⟨opening, terms, groups⟩ := formula
  unfold Mode.afterTerm
  cases hop : Arithmetic.ofKind? token.kind with
  | some op => exact .goesOn (Place.next_operator_of_sign hop) id
  | none =>
    -- outside of all groups the formula has to end, inside of one that group
    cases groups with
    | nil =>
      have hnext := Place.next_operator_zero hop
      by_cases hhash : token.kind = .hash
      · rw [if_pos hhash] at hnext
        simp only [if_pos hhash]
        exact .goesOn hnext id
      · rw [if_neg hhash] at hnext
        simp only [if_neg hhash]
        exact .refused hnext rfl nofun
    | cons pending? groups =>
      have hnext := Place.next_operator_succ groups.length hop
      by_cases hclose : token.kind = .closeParen
      · rw [if_pos hclose] at hnext
        simp only [if_pos hclose]
        refine .goesOn hnext fun hdepth => ?_
        have hdepth : base + (groups.length + 1) ≤ maxNesting := hdepth
        show base + groups.length ≤ maxNesting
        omega
      · rw [if_neg hclose] at hnext
        simp only [if_neg hclose]
        exact .refused hnext rfl nofun

/-- The outcome of a token where only one kind may follow, outside of all groups. -/
theorem outcome_of_one {done : List Node} {mode mode' : Mode} {kind : Kind}
    (hmode : mode.next base token =
      if token.kind = kind then .ok mode' else .error mode.expectation)
    (hplace : mode.place.next token.kind = if token.kind = kind then some mode'.place else none)
    (hdepth : mode'.place.depth = 0) (hexpected : mode.expectation ≠ .fewerTerms) :
    Outcome base ⟨done, mode⟩ token ((mode.next base token).map fun mode => ⟨done, mode⟩) := by
  rw [hmode]
  by_cases hkind : token.kind = kind
  · rw [if_pos hkind] at hplace ⊢
    refine .goesOn hplace fun h => ?_
    show base + mode'.place.depth ≤ maxNesting
    omega
  · rw [if_neg hkind] at hplace ⊢
    exact .refused hplace rfl hexpected

/-- **One step.** The grammar and the limits decide what comes of a token. -/
theorem outcome_step (base : Nat) (reading : Reading) (token : Token) :
    Outcome base reading token (reading.step base token) := by
  obtain ⟨done, mode⟩ := reading
  by_cases hends : ∃ whole, mode = .semicolon whole ∧ token.kind = .semicolon
  · obtain ⟨whole, rfl, hkind⟩ := hends
    rw [step_semicolon hkind]
    exact .goesOn (by rw [hkind]; rfl) id
  rw [step_of_not_ends hends]
  cases mode with
  | statement =>
    cases hkind : token.kind with
    | word | ejkey | print | ejprint =>
      simp only [Mode.next, hkind]
      exact .goesOn (by rw [hkind]; rfl) id
    | _ =>
      simp only [Mode.next, hkind]
      exact .refused (by rw [hkind]; rfl) rfl (fun h => by cases h)
  | equals name => exact outcome_of_one rfl (Place.next_equals _) rfl (fun h => by cases h)
  | aliasName keyword => exact outcome_of_one rfl (Place.next_aliasName _) rfl (fun h => by cases h)
  | aliasValue keyword key =>
    have hnext := Place.next_aliasValue token.kind
    unfold Mode.next
    cases hform : Leaf.ofAliasValue? token.kind with
    | some form =>
      rw [hform] at hnext
      exact .goesOn hnext id
    | none =>
      rw [hform] at hnext
      exact .refused hnext rfl (fun h => by cases h)
  | operand formula pending? =>
    unfold Mode.next
    by_cases hterms : formula.terms < maxTerms
    · simp only [if_pos hterms]
      exact outcome_term hterms done pending?
    · simp only [if_neg hterms]
      exact .tooManyTerms rfl (Nat.le_of_not_lt hterms)
  | operator formula left => exact outcome_afterTerm formula done left
  | hash whole => exact outcome_of_one rfl (Place.next_hash _) rfl (fun h => by cases h)
  | semicolon whole =>
    have hnext := Place.next_semicolon token.kind
    rw [if_neg fun hkind => hends ⟨whole, rfl, hkind⟩] at hnext
    exact .refused hnext rfl (fun h => by cases h)

/-- A step leads where the grammar leads, and not too deep. -/
theorem place_of_step {next : Reading} (h : reading.step base token = .ok next) :
    reading.mode.place.next token.kind = some next.mode.place ∧
      (base + reading.mode.place.depth ≤ maxNesting → base + next.mode.place.depth ≤ maxNesting) := by
  have houtcome := outcome_step base reading token
  rw [h] at houtcome
  cases houtcome with
  | goesOn hplace hdepth => exact ⟨hplace, hdepth⟩

/-- A refused token leaves the groups counted that are open, but for one that lacks its closing
parenthesis. -/
theorem unclosed_of_error {expected : Expectation} (h : reading.step base token = .error expected) :
    reading.mode.unclosed + (if expected = .closeParen then 1 else 0) =
      reading.mode.place.depth := by
  have houtcome := outcome_step base reading token
  rw [h] at houtcome
  cases houtcome with
  | refused _ hexpected => exact hexpected ▸ reading.mode.unclosed_add
  | tooManyTerms hmode =>
    rw [hmode]
    rfl
  | tooDeep hmode =>
    rw [hmode]
    rfl

/-- Where a group is one too many, as many are open as may be. -/
theorem deepest_of_error (h : reading.step base token = .error .fewerParens) :
    maxNesting ≤ base + reading.mode.unclosed := by
  have houtcome := outcome_step base reading token
  rw [h] at houtcome
  cases houtcome with
  | refused _ hexpected => exact absurd hexpected.symm reading.mode.expectation_ne_fewerParens
  | tooDeep hmode _ hnest =>
    rw [hmode]
    exact hnest

/-- Behind the last token a reading expects what its mode does. -/
theorem eq_expectation_of_missing? {expected : Expectation}
    (h : reading.missing? = some expected) : expected = reading.mode.expectation := by
  unfold missing? at h
  split at h
  next => cases h
  next => exact (Option.some.inj h).symm

/-! ### Many steps -/

/-- Tokens lead from one reading to another. -/
inductive Steps (base : Nat) : Reading → List Token → Reading → Prop where
  | nil (reading : Reading) : Steps base reading [] reading
  | cons {reading next last : Reading} {token : Token} {rest : List Token} :
      reading.step base token = .ok next → Steps base next rest last →
      Steps base reading (token :: rest) last

/-- **Runs.** A reading takes steps over its first tokens.  It stops where it has read all of them,
or at the first token that is refused. -/
theorem run_cases (base : Nat) (reading : Reading) (tokens : List Token) :
    ∃ read last, Steps base reading read last ∧
      ((tokens = read ∧ reading.run base tokens = ⟨last, [], last.missing?⟩) ∨
        ∃ token rest expected, tokens = read ++ token :: rest ∧
          last.step base token = .error expected ∧
          reading.run base tokens = ⟨last, token :: rest, some expected⟩) := by
  induction tokens generalizing reading with
  | nil => exact ⟨[], reading, .nil reading, .inl ⟨rfl, rfl⟩⟩
  | cons token rest ih =>
    cases hstep : reading.step base token with
    | error expected =>
      refine ⟨[], reading, .nil reading, .inr ⟨token, rest, expected, rfl, hstep, ?_⟩⟩
      rw [run, hstep]
    | ok next =>
      have hrun : reading.run base (token :: rest) = next.run base rest := by rw [run, hstep]
      rw [hrun]
      obtain ⟨read, last, hsteps, hend⟩ := ih next
      refine ⟨token :: read, last, .cons hstep hsteps, ?_⟩
      rcases hend with ⟨rfl, hrun⟩ | ⟨refused, left, expected, rfl, hstep', hrun⟩
      · exact .inl ⟨rfl, hrun⟩
      · exact .inr ⟨refused, left, expected, rfl, hstep', hrun⟩

namespace Steps

variable {last : Reading} {read : List Token}

/-- Tokens that are read lead where the grammar leads with their kinds. -/
theorem walk (h : Steps base reading read last) :
    reading.mode.place.walk (read.map Token.kind) = some last.mode.place := by
  induction h with
  | nil => rfl
  | cons hstep _ ih =>
    rw [List.map_cons, Place.walk_cons_of_next (place_of_step hstep).1, ih]

/-- The groups that are open are those that were opened and not closed. -/
theorem depth_add_count (h : Steps base {} read last) :
    last.mode.place.depth + (read.map Token.kind).count .closeParen =
      (read.map Token.kind).count .openParen := by
  rw [Place.depth_of_walk h.walk]
  exact Nat.zero_add _

/-- No more groups are ever open than may be. -/
theorem depth_le (h : Steps base reading read last)
    (hdepth : base + reading.mode.place.depth ≤ maxNesting) :
    base + last.mode.place.depth ≤ maxNesting := by
  induction h with
  | nil => exact hdepth
  | cons hstep _ ih => exact ih ((place_of_step hstep).2 hdepth)

/-- The first of some steps are steps. -/
theorem exists_of_prefix (h : Steps base reading read last) {before : List Token}
    (hbefore : before <+: read) : ∃ between, Steps base reading before between := by
  induction h generalizing before with
  | nil reading =>
    obtain rfl := List.prefix_nil.mp hbefore
    exact ⟨reading, .nil reading⟩
  | @cons reading next last token rest hstep _ ih =>
    rcases List.prefix_cons_iff.mp hbefore with rfl | ⟨tail, rfl, htail⟩
    · exact ⟨reading, .nil reading⟩
    · obtain ⟨between, hbetween⟩ := ih htail
      exact ⟨between, .cons hstep hbetween⟩

end Steps

end Reading

end EmojiScript
