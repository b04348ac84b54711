import EmojiScript.Proofs.Parser.Completeness
import EmojiScript.Proofs.Parser.Relocation

namespace EmojiScript

open Grammar

/-!
# Reading one list of tokens behind another

Between statements nothing of the ones before is remembered but their trees.  So the statements of
a program stay as they are when more tokens follow it, and these are read as they would be alone,
also where they come from another text and stand elsewhere than they did there.

* `Reading.run_append`, `Reading.run_behind` — tokens and statements before.
* `parse_append_of_ok`, `parse_append_of_error` — whole lists of tokens.
* `exists_later_of_parse_append`, `exists_split_of_parse` — where the tokens of a program may be cut.
-/

namespace Reading

variable {base : Nat} {reading : Reading} {tokens : List Token}

/-! ### Tokens before -/

/-- A reading that has read all its tokens goes on with those that follow. -/
theorem run_append (h : (reading.run base tokens).rest = []) (more : List Token) :
    reading.run base (tokens ++ more) = (reading.run base tokens).reading.run base more := by
  induction tokens generalizing reading with
  | nil => rfl
  | cons token rest ih =>
    rw [run] at h
    rw [List.cons_append, run, run]
    cases hstep : reading.step base token with
    | ok next =>
      rw [hstep] at h
      exact ih h
    | error =>
      rw [hstep] at h
      cases h

/-! ### Statements before -/

/-- The reading behind further statements. -/
def behind (before : List Node) (reading : Reading) : Reading :=
  { reading with done := reading.done ++ before }

theorem step_behind (before : List Node) (reading : Reading) (token : Token) :
    (reading.behind before).step base token = (reading.step base token).map (behind before) := by
  obtain ⟨done, mode⟩ := reading
  by_cases hends : ∃ whole, mode = .semicolon whole ∧ token.kind = .semicolon
  · obtain ⟨whole, rfl, hkind⟩ := hends
    rw [step_semicolon hkind]
    exact step_semicolon hkind
  · rw [step_of_not_ends hends, behind, step_of_not_ends hends]
    cases mode.next base token <;> rfl

/-- Statements that were read before are not looked at again. -/
theorem run_behind (before : List Node) (reading : Reading) (tokens : List Token) :
    (reading.behind before).run base tokens =
      { reading.run base tokens with
        reading := (reading.run base tokens).reading.behind before } := by
  induction tokens generalizing reading with
  | nil => rfl
  | cons token rest ih =>
    rw [run, run, step_behind]
    cases reading.step base token with
    | ok next => exact ih next
    | error => rfl

end Reading

/-! ### Whole lists of tokens -/

section Parse

variable {tokens : List Token} {before : List Node}

/-- A program is read to its end, behind any statements. -/
theorem run_of_parse (h : parse tokens = .ok (.program before)) (done : List Node) :
    Reading.run 0 ⟨done, .statement⟩ tokens = ⟨⟨before.reverse ++ done, .statement⟩, [], none⟩ := by
  obtain ⟨htree, hfits⟩ := parse_eq_ok_iff.mp h
  exact Reading.leadsTo_of_prescribes htree before rfl hfits done

/-- The reading of a program and of tokens behind it elsewhere. -/
theorem run_parse_append (h : parse tokens = .ok (.program before)) (move : Relocation)
    (more : List Token) :
    Reading.run 0 {} (tokens ++ more.map (Token.relocate move)) =
      { (Reading.run 0 {} more).relocate move with
        reading := ((Reading.run 0 {} more).reading.relocate move).behind before.reverse } := by
  have hrun : Reading.run 0 {} tokens = ⟨Reading.behind before.reverse {}, [], none⟩ := by
    have := run_of_parse h []
    simpa [Reading.behind] using this
  have hmove : Reading.run 0 {} (more.map (Token.relocate move)) =
      (Reading.run 0 {} more).relocate move := Reading.run_relocate move 0 {} more
  rw [Reading.run_append (by rw [hrun]), hrun, Reading.run_behind, hmove]
  rfl

/-- Behind a program, tokens are read as the program that they are alone, elsewhere. -/
theorem parse_append_of_ok (h : parse tokens = .ok (.program before)) (move : Relocation)
    {more : List Token} {after : List Node} (hmore : parse more = .ok (.program after)) :
    parse (tokens ++ more.map (Token.relocate move)) =
      .ok (.program (before ++ after.map (Node.relocate move))) := by
  have hrun : Reading.run 0 {} more = ⟨⟨after.reverse ++ [], .statement⟩, [], none⟩ :=
    run_of_parse hmore []
  rw [parse_eq_run, run_parse_append h, hrun]
  simp [Stop.relocate, Reading.relocate, Reading.behind]

/-- The statements of one program follow those of another. -/
theorem parse_append {more : List Token} {after : List Node}
    (h : parse tokens = .ok (.program before)) (hmore : parse more = .ok (.program after)) :
    parse (tokens ++ more) = .ok (.program (before ++ after)) := by
  have hrun : Reading.run 0 {} tokens = ⟨⟨before.reverse ++ [], .statement⟩, [], none⟩ :=
    run_of_parse h []
  rw [parse_eq_run, Reading.run_append (by rw [hrun]), hrun, run_of_parse hmore]
  simp

/-- The place of a fault in the tokens behind others. -/
theorem Parser.faultLocation_append (text : String) (tokens rest : List Token)
    {more : List Token} (hmore : more ≠ []) :
    (Parser.ofTokens (tokens ++ more.map (Token.relocate (.behind text)))).faultLocation
        (rest.map (Token.relocate (.behind text))) =
      ((Parser.ofTokens more).faultLocation rest).relocate (.behind text) := by
  cases rest with
  | cons token rest => rfl
  | nil =>
    -- where the tokens run out, the last of them is the last of those behind
    obtain ⟨last, hlast⟩ : ∃ last, more.getLast? = some last :=
      ⟨_, List.getLast?_eq_some_getLast hmore⟩
    simp [Parser.faultLocation, Parser.ofTokens, List.getLast?_append, hlast,
      Token.stop_relocate_behind]

/-- Behind a program, tokens that are no program fail as they do alone, elsewhere. -/
theorem parse_append_of_error (h : parse tokens = .ok (.program before)) (text : String)
    {more : List Token} {fault : Fault} (hmore : parse more = .error fault) :
    parse (tokens ++ more.map (Token.relocate (.behind text))) =
      .error (fault.relocate (.behind text)) := by
  have hsome : more ≠ [] := by
    rintro rfl
    cases hmore
  rw [parse_eq_run] at hmore
  rw [parse_eq_run, run_parse_append h]
  cases hfailure : (Reading.run 0 {} more).failure? with
  | none =>
    rw [hfailure] at hmore
    cases hmore
  | some expected =>
    rw [hfailure] at hmore
    obtain rfl := Except.error.inj hmore
    simp [Stop.relocate, hfailure, Parser.faultLocation_append text tokens _ hsome, Fault.relocate]

/-! ### Between the statements of a program -/

/-- What follows a program within a program is the rest of its statements. -/
theorem exists_later_of_parse_append {more : List Token} {statements : List Node}
    (h : parse tokens = .ok (.program before))
    (hwhole : parse (tokens ++ more) = .ok (.program statements)) :
    ∃ later, statements = before ++ later ∧ parse more = .ok (.program later) := by
  have hrun : Reading.run 0 {} tokens = ⟨⟨before.reverse ++ [], .statement⟩, [], none⟩ :=
    run_of_parse h []
  rw [parse_eq_run, Reading.run_append (by rw [hrun]), hrun, List.append_nil] at hwhole
  split at hwhole
  next hfailure =>
    obtain ⟨later, hdone, htree, hfits⟩ := Reading.prescribes_of_run .statement hfailure
    refine ⟨later, ?_, parse_eq_ok_iff.mpr ⟨htree, hfits⟩⟩
    rw [hdone] at hwhole
    simpa using hwhole.symm
  next => simp at hwhole

/-- The tokens of a program can be cut between any two of its statements. -/
theorem exists_split_of_parse {later : List Node}
    (h : parse tokens = .ok (.program (before ++ later))) :
    ∃ read rest, tokens = read ++ rest ∧ parse read = .ok (.program before) ∧
      parse rest = .ok (.program later) := by
  induction before generalizing tokens with
  | nil => exact ⟨[], tokens, rfl, rfl, h⟩
  | cons statement before ih =>
    obtain ⟨htree, hfits⟩ := parse_eq_ok_iff.mp h
    cases htree with
    | next hstatement hhash hsemicolon hrest =>
      -- the limits of the first statement and of the others come apart
      have hfree := semicolon_notMem_of_derives (derives_of_prescribes hstatement) (by decide)
      rw [List.map_append, List.map_cons, List.map_cons, hhash, hsemicolon, fits_next_iff hfree]
        at hfits
      obtain ⟨read, rest, rfl, hread, hlater⟩ := ih (parse_eq_ok_iff.mpr ⟨hrest, hfits.2⟩)
      obtain ⟨hbefore, hwithin⟩ := parse_eq_ok_iff.mp hread
      refine ⟨_, rest, ?_, parse_eq_ok_iff.mpr (Reading.prescribes_fits_next hstatement hfits.1
        hhash hsemicolon hbefore hwithin), hlater⟩
      simp

end Parse

end EmojiScript
