import EmojiScript.Proofs.Parser.Soundness

namespace EmojiScript

open Grammar

/-!
# A parser reads all that the grammar prescribes

What the grammar prescribes and the limits allow leads a reading over its tokens, whatever follows
them, to the place behind the phrase, with the tree of the phrase in hand.  Every rule of the
grammar has a lemma; the induction over prescribed trees puts them together.

* `Reading.LeadsTo` — what is shown of a phrase.
* `Reading.leadsTo_of_prescribes` — every prescribed phrase has it.
* `parse_eq_ok_iff` — with the other direction: a parser succeeds with exactly the prescribed trees.
* `exists_parse_iff_derives` — a parser succeeds on exactly the programs of the grammar.
-/

namespace Reading

theorem step_of_next {base : Nat} {done : List Node} {mode mode' : Mode} {token : Token}
    (h : mode.next base token = .ok mode') : step base ⟨done, mode⟩ token = .ok ⟨done, mode'⟩ := by
  cases mode with
  | semicolon => cases h
  | _ => simp [step, h, Except.map]

theorem run_cons_of_next {base : Nat} {done : List Node} {mode mode' : Mode} {token : Token}
    (h : mode.next base token = .ok mode') (rest : List Token) :
    run base ⟨done, mode⟩ (token :: rest) = run base ⟨done, mode'⟩ rest := by
  rw [run, step_of_next h]

/-- How a phrase that keeps to the limits leads a reading to its tree.  `room` is how many
parentheses may still be opened around a term. -/
def LeadsTo : Phrase → List Token → Node → Prop
  | .term, tokens, node => ∀ done (formula : Unfinished) pending? room rest,
      formula.terms + termCount (tokens.map Token.kind) ≤ maxTerms →
      formula.groups.length + room = maxNesting → NestsWithin room (tokens.map Token.kind) →
      run 0 ⟨done, .operand formula pending?⟩ (tokens ++ rest) =
        run 0 ⟨done, .operator
          { formula with terms := formula.terms + termCount (tokens.map Token.kind) }
          (Pending.complete pending? node)⟩ rest
  | .formula, tokens, node => ∀ done (formula : Unfinished) room rest,
      formula.terms + termCount (tokens.map Token.kind) ≤ maxTerms →
      formula.groups.length + room = maxNesting → NestsWithin room (tokens.map Token.kind) →
      run 0 ⟨done, .operand formula none⟩ (tokens ++ rest) =
        run 0 ⟨done, .operator
          { formula with terms := formula.terms + termCount (tokens.map Token.kind) } node⟩ rest
  | .statement, tokens, node => ∀ done hash rest, WithinLimits (formulaOf (tokens.map Token.kind)) →
      hash.kind = .hash →
      run 0 ⟨done, .statement⟩ (tokens ++ hash :: rest) = run 0 ⟨done, .semicolon node⟩ rest
  | .program, tokens, node => ∀ statements, node = .program statements →
      Fits (tokens.map Token.kind) → ∀ done,
      run 0 ⟨done, .statement⟩ tokens = ⟨⟨statements.reverse ++ done, .statement⟩, [], none⟩
  | .operations, _, _ => True

/-- A group leads to its tree if its inside does. -/
theorem leadsTo_group {opening closing : Token} {inner : List Token} {node : Node}
    (hopening : opening.kind = .openParen) (hclosing : closing.kind = .closeParen)
    (hinner : LeadsTo .formula inner node) :
    LeadsTo .term (opening :: (inner ++ [closing])) node := by
  intro done formula pending? room rest hterms hroom hnests
  simp only [List.map_cons, List.map_append, List.map_nil, hopening, hclosing] at hterms hnests ⊢
  obtain ⟨inside, rfl, hinside⟩ := hnests.group
  have hcount : termCount (.openParen :: (inner.map Token.kind ++ [.closeParen])) =
      termCount (inner.map Token.kind) + 1 := by
    rw [termCount_cons, termCount_append]
    rfl
  rw [hcount] at hterms ⊢
  -- over the parenthesis, the inside with what waits for the group laid aside, and back
  have hopen : Mode.next 0 (.operand formula pending?) opening = .ok (.operand
      { formula with terms := formula.terms + 1, groups := pending? :: formula.groups } none) := by
    have hmax : formula.terms < maxTerms := by omega
    have hnest : 0 + formula.groups.length < maxNesting := by omega
    simp only [Mode.next, Mode.term, hopening, if_pos hmax, if_pos hnest, if_true]
  have hclose : Mode.next 0 (.operator
      { formula with
        terms := formula.terms + 1 + termCount (inner.map Token.kind),
        groups := pending? :: formula.groups } node) closing = .ok (.operator
      { formula with terms := formula.terms + 1 + termCount (inner.map Token.kind) }
      (Pending.complete pending? node)) := by
    simp [Mode.next, Mode.afterTerm, hclosing, Arithmetic.ofKind?]
  have hread := hinner done
    { formula with terms := formula.terms + 1, groups := pending? :: formula.groups } inside
    (closing :: rest) (by simp only; omega) (by simp only [List.length_cons]; omega) hinside
  rw [List.cons_append, run_cons_of_next hopen, List.append_assoc, List.singleton_append, hread,
    run_cons_of_next hclose, Nat.add_right_comm, Nat.add_assoc]

/-- A leaf leads to itself. -/
theorem leadsTo_leaf {token : Token} {form : Leaf} (hform : form ≠ .emoji)
    (htoken : token.kind = form.kind) : LeadsTo .term [token] (.leaf form token) := by
  intro done formula pending? room rest hterms hroom hnests
  have hcount : termCount ([token].map Token.kind) = 1 := by
    rw [List.map_singleton, htoken]
    cases form <;> first | rfl | exact absurd rfl hform
  rw [hcount] at hterms ⊢
  have hleaf : Leaf.ofTerm? token.kind = some form := Leaf.ofTerm?_eq_some_iff.mpr ⟨hform, htoken⟩
  have hparen : token.kind ≠ .openParen := by
    rw [htoken]
    cases form <;> decide
  have hnext : Mode.next 0 (.operand formula pending?) token = .ok (.operator
      { formula with terms := formula.terms + 1 }
      (Pending.complete pending? (.leaf form token))) := by
    have hmax : formula.terms < maxTerms := by omega
    simp only [Mode.next, Mode.term, if_pos hmax, if_neg hparen, hleaf]
  rw [List.singleton_append, run_cons_of_next hnext]

/-- An operation leads from its left operand over its sign to the whole. -/
theorem leadsTo_chain {before right : List Token} {operator : Token} {op : Arithmetic}
    {left operand : Node} (hleft : Prescribes .formula before left)
    (hoperator : operator.kind = op.kind) (hbefore : LeadsTo .formula before left)
    (hright : LeadsTo .term right operand) :
    LeadsTo .formula (before ++ operator :: right) (.formula op operator left operand) := by
  intro done formula room rest hterms hroom hnests
  simp only [List.map_append, List.map_cons, hoperator] at hterms hnests ⊢
  have hsign := exists_arithmetic_iff.mp ⟨op, rfl⟩
  have hcount : termCount (before.map Token.kind ++ op.kind :: right.map Token.kind) =
      termCount (before.map Token.kind) + termCount (right.map Token.kind) := by
    rw [termCount_append, termCount_cons]
    rcases hsign with hsign | hsign <;> rw [hsign] <;> rfl
  rw [hcount] at hterms ⊢
  -- the left operand has closed its groups, so the right one has as much room
  have hbalanced := count_parens_of_derives (derives_of_prescribes hleft)
  have hnext : Mode.next 0 (.operator
      { formula with terms := formula.terms + termCount (before.map Token.kind) } left) operator =
      .ok (.operand { formula with terms := formula.terms + termCount (before.map Token.kind) }
        (some ⟨left, op, operator⟩)) := by
    simp only [Mode.next, Mode.afterTerm, Arithmetic.ofKind?_eq_some_iff.mpr hoperator]
  have hfirst := hbefore done formula room (operator :: (right ++ rest)) (by omega) hroom
    hnests.of_append
  have hsecond := hright done
    { formula with terms := formula.terms + termCount (before.map Token.kind) }
    (some ⟨left, op, operator⟩) room rest (by simp only; omega) hroom
    (hnests.of_chain hbalanced hsign)
  rw [List.append_assoc, List.cons_append, hfirst, run_cons_of_next hnext, hsecond]
  simp only [Pending.complete, Nat.add_assoc]

/-- The tokens before a formula lead to the place where it has to begin. -/
theorem run_opening {opening : Opening} {before : List Token} (h : opening.Reads before)
    (done : List Node) (rest : List Token) :
    run 0 ⟨done, .statement⟩ (before ++ rest) = run 0 ⟨done, .operand { opening } none⟩ rest := by
  cases h with
  | @assign name operator hname hoperator =>
    have hfirst : Mode.next 0 .statement name = .ok (.equals name) := by
      simp only [Mode.next, hname]
    have hsecond : Mode.next 0 (.equals name) operator =
        .ok (.operand { opening := .assign name operator } none) := by
      simp only [Mode.next, hoperator, if_true]
    show run 0 _ (name :: operator :: rest) = _
    rw [run_cons_of_next hfirst, run_cons_of_next hsecond]
  | @print operator hoperator =>
    have hfirst : Mode.next 0 .statement operator =
        .ok (.operand { opening := .print operator } none) := by
      simp only [Mode.next, hoperator]
    rw [List.singleton_append, run_cons_of_next hfirst]
  | @printAlias operator hoperator =>
    have hfirst : Mode.next 0 .statement operator =
        .ok (.operand { opening := .printAlias operator } none) := by
      simp only [Mode.next, hoperator]
    rw [List.singleton_append, run_cons_of_next hfirst]

/-- A statement that ends with a formula is led to behind its opening. -/
theorem leadsTo_opening {opening : Opening} {before tokens : List Token} {node : Node}
    (hbefore : opening.Reads before) (hformula : LeadsTo .formula tokens node) :
    LeadsTo .statement (before ++ tokens) (opening.close node) := by
  intro done hash rest hlimits hhash
  rw [hbefore.formulaOf_append] at hlimits
  have hread := hformula done { opening } maxNesting (hash :: rest)
    (by simpa using hlimits.terms) (by simp) hlimits.nesting
  have hend : Mode.next 0 (.operator
      { opening, terms := 0 + termCount (tokens.map Token.kind) } node) hash =
      .ok (.semicolon (opening.close node)) := by
    simp [Mode.next, Mode.afterTerm, hhash, Arithmetic.ofKind?]
  rw [List.append_assoc, run_opening hbefore, hread, run_cons_of_next hend]

/-- An alias definition leads to its tree. -/
theorem leadsTo_defineAlias {keyword key shown : Token} {form : Leaf}
    (hkeyword : keyword.kind = .ejkey) (hkey : key.kind = .word) (hform : form ≠ .number)
    (hshown : shown.kind = form.kind) :
    LeadsTo .statement [keyword, key, shown]
      (.defineAlias keyword (.leaf .word key) (.leaf form shown)) := by
  intro done hash rest _ hhash
  have hfirst : Mode.next 0 .statement keyword = .ok (.aliasName keyword) := by
    simp only [Mode.next, hkeyword]
  have hsecond : Mode.next 0 (.aliasName keyword) key = .ok (.aliasValue keyword key) := by
    simp only [Mode.next, hkey, if_true]
  have hleaf := Leaf.ofAliasValue?_eq_some_iff.mpr ⟨hform, hshown⟩
  have hthird : Mode.next 0 (.aliasValue keyword key) shown =
      .ok (.hash (.defineAlias keyword (.leaf .word key) (.leaf form shown))) := by
    simp only [Mode.next, hleaf]
  have hend : Mode.next 0 (.hash (.defineAlias keyword (.leaf .word key) (.leaf form shown))) hash =
      .ok (.semicolon (.defineAlias keyword (.leaf .word key) (.leaf form shown))) := by
    simp only [Mode.next, hhash, if_true]
  show run 0 _ (keyword :: key :: shown :: hash :: rest) = _
  rw [run_cons_of_next hfirst, run_cons_of_next hsecond, run_cons_of_next hthird,
    run_cons_of_next hend]

/-- A statement with its end leads to a program with one statement more. -/
theorem leadsTo_next {tokens rest : List Token} {hash semicolon : Token} {statement : Node}
    {statements : List Node} (hstatement : Prescribes .statement tokens statement)
    (hhash : hash.kind = .hash) (hsemicolon : semicolon.kind = .semicolon)
    (hfirst : LeadsTo .statement tokens statement)
    (hrest : LeadsTo .program rest (.program statements)) :
    LeadsTo .program (tokens ++ hash :: semicolon :: rest) (.program (statement :: statements)) := by
  rintro _ ⟨⟩ hfits done
  -- the limits of the statement and of the rest come apart at its semicolon
  have hfree := semicolon_notMem_of_derives (derives_of_prescribes hstatement) (by decide)
  rw [List.map_append, List.map_cons, List.map_cons, hhash, hsemicolon, fits_next_iff hfree] at hfits
  have hstep : step 0 ⟨done, .semicolon statement⟩ semicolon =
      .ok ⟨statement :: done, .statement⟩ := by
    simp only [step, hsemicolon]
  rw [hfirst done hash (semicolon :: rest) hfits.1 hhash, run, hstep]
  simpa using hrest statements rfl hfits.2 (statement :: done)

/-- **Completeness.** What the grammar prescribes is read, as far as it keeps to the limits. -/
theorem leadsTo_of_prescribes {phrase : Phrase} {tokens : List Token} {node : Node}
    (h : Prescribes phrase tokens node) : LeadsTo phrase tokens node := by
  induction h with
  | done =>
    rintro _ ⟨⟩ _ done
    rfl
  | next hstatement hhash hsemicolon _ statement rest =>
    exact leadsTo_next hstatement hhash hsemicolon statement rest
  | assign hname hoperator _ formula => exact leadsTo_opening (.assign hname hoperator) formula
  | defineAlias hkeyword hkey hform hshown =>
    exact leadsTo_defineAlias hkeyword hkey hform hshown
  | print hoperator _ formula => exact leadsTo_opening (.print hoperator) formula
  | printAlias hoperator _ formula => exact leadsTo_opening (.printAlias hoperator) formula
  | single _ term =>
    intro done formula room rest hterms hroom hnests
    exact term done formula none room rest hterms hroom hnests
  | chain hleft hoperator _ formula term => exact leadsTo_chain hleft hoperator formula term
  | group hopening _ hclosing formula => exact leadsTo_group hopening hclosing formula
  | leaf hform htoken => exact leadsTo_leaf hform htoken

end Reading

/-! ### What a parser accepts -/

theorem parse_eq_run (tokens : List Token) :
    parse tokens =
      match (Reading.run 0 {} tokens).failure? with
      | none => .ok (.program (Reading.run 0 {} tokens).reading.done.reverse)
      | some expected => .error (.parse
          ((Parser.ofTokens tokens).faultLocation (Reading.run 0 {} tokens).rest) expected) := rfl

/-- A parser succeeds with a tree exactly where the grammar prescribes it and the limits allow
it. -/
theorem parse_eq_ok_iff {tokens : List Token} {program : Node} :
    parse tokens = .ok program ↔
      Prescribes .program tokens program ∧ Fits (tokens.map Token.kind) := by
  constructor
  · intro h
    rw [parse_eq_run] at h
    split at h
    next hrun =>
      obtain ⟨statements, hdone, htree, hfits⟩ := Reading.prescribes_of_run .statement hrun
      rw [hdone] at h
      obtain rfl := Except.ok.inj h
      exact ⟨htree, hfits⟩
    next => cases h
  · rintro ⟨htree, hfits⟩
    obtain ⟨statements, rfl⟩ : ∃ statements, program = .program statements := by
      cases htree <;> exact ⟨_, rfl⟩
    have hrun := Reading.leadsTo_of_prescribes htree statements rfl hfits []
    have hrun : Reading.run 0 {} tokens = ⟨⟨statements.reverse ++ [], .statement⟩, [], none⟩ := hrun
    rw [parse_eq_run, hrun]
    simp

/-- **Acceptance.** A parser succeeds exactly on the token lists that are programs of the grammar
by their kinds and keep to the limits in every statement.  It then gives the only tree that the
grammar prescribes, and this tree, read in source order, is the tokens without parentheses and
ends of statements. -/
theorem exists_parse_iff_derives (tokens : List Token) :
    ((∃ program, parse tokens = .ok program) ↔
      Derives .program (tokens.map Token.kind) ∧ Fits (tokens.map Token.kind)) ∧
    ∀ program, parse tokens = .ok program →
      Prescribes .program tokens program ∧
      (∀ other, Prescribes .program tokens other → other = program) ∧
      program.inOrder = withoutPunctuation tokens := by
  refine ⟨⟨?_, ?_⟩, ?_⟩
  · rintro ⟨program, h⟩
    obtain ⟨htree, hfits⟩ := parse_eq_ok_iff.mp h
    exact ⟨derives_of_prescribes htree, hfits⟩
  · rintro ⟨hderives, hfits⟩
    obtain ⟨statements, htree⟩ := derives_program_iff.mp hderives
    exact ⟨.program statements, parse_eq_ok_iff.mpr ⟨htree, hfits⟩⟩
  · intro program h
    obtain ⟨htree, hfits⟩ := parse_eq_ok_iff.mp h
    refine ⟨htree, ?_, inOrder_eq_of_prescribes htree⟩
    intro other hother
    -- the parser is a function: another tree would be its result as well
    have hother := parse_eq_ok_iff.mpr ⟨hother, hfits⟩
    rw [h] at hother
    exact (Except.ok.inj hother).symm

/-- The tokens of `x = 1 - (2 + y)#;`. -/
def groupedDifference : List Token :=
  [⟨.word, "x", ⟨0, 1⟩⟩, ⟨.equals, "=", ⟨2, 1⟩⟩, ⟨.number, "1", ⟨4, 1⟩⟩, ⟨.minus, "-", ⟨6, 1⟩⟩,
   ⟨.openParen, "(", ⟨8, 1⟩⟩, ⟨.number, "2", ⟨9, 1⟩⟩, ⟨.plus, "+", ⟨11, 1⟩⟩,
   ⟨.word, "y", ⟨13, 1⟩⟩, ⟨.closeParen, ")", ⟨14, 1⟩⟩, ⟨.hash, "#", ⟨15, 1⟩⟩,
   ⟨.semicolon, ";", ⟨16, 1⟩⟩]

/-- The tree of `x = 1 - (2 + y)#;`. -/
def groupedDifferenceTree : Node :=
  .program [.assign ⟨.equals, "=", ⟨2, 1⟩⟩ (.leaf .word ⟨.word, "x", ⟨0, 1⟩⟩)
    (.formula .sub ⟨.minus, "-", ⟨6, 1⟩⟩ (.leaf .number ⟨.number, "1", ⟨4, 1⟩⟩)
      (.formula .add ⟨.plus, "+", ⟨11, 1⟩⟩ (.leaf .number ⟨.number, "2", ⟨9, 1⟩⟩)
        (.leaf .word ⟨.word, "y", ⟨13, 1⟩⟩)))]

theorem parse_groupedDifference :
    parse groupedDifference = .ok groupedDifferenceTree ∧
      Prescribes .program groupedDifference groupedDifferenceTree ∧
      (∀ other, Prescribes .program groupedDifference other → other = groupedDifferenceTree) ∧
      groupedDifferenceTree.inOrder = withoutPunctuation groupedDifference :=
  ⟨rfl, (exists_parse_iff_derives groupedDifference).2 groupedDifferenceTree rfl⟩

end EmojiScript
