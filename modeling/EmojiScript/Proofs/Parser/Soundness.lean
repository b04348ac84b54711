import EmojiScript.Parser.Basic
import EmojiScript.Proofs.Grammar

namespace EmojiScript

open Grammar

/-!
# A parser reads only what the grammar prescribes

A mode remembers the tokens that led to it only as far as the rest of the statement needs them.
`Mode.Reads` is the relation between the two: it says of every operand and operation that a
formula under way keeps which tokens it stands for, and that the counters agree with them.  Every
step keeps it, and at the end of a statement it is a tree that the grammar prescribes.

* `Mode.Reads` — the tokens of the current statement that lead to a mode.
* `Mode.Reads.next` — one step keeps the relation.
* `Reading.prescribes_of_run` — a whole reading without failure is a program of the grammar, and
  its statements keep to the limits.
-/

/-! ### Kinds that stand for leaves and operations -/

theorem Leaf.ofTerm?_eq_some_iff {kind : Kind} {form : Leaf} :
    Leaf.ofTerm? kind = some form ↔ form ≠ .emoji ∧ kind = form.kind := by
  cases kind <;> cases form <;> decide

theorem Leaf.ofAliasValue?_eq_some_iff {kind : Kind} {form : Leaf} :
    Leaf.ofAliasValue? kind = some form ↔ form ≠ .number ∧ kind = form.kind := by
  cases kind <;> cases form <;> decide

theorem Arithmetic.ofKind?_eq_some_iff {kind : Kind} {op : Arithmetic} :
    Arithmetic.ofKind? kind = some op ↔ kind = op.kind := by
  cases kind <;> cases op <;> decide

/-! ### Tokens behind a state -/

/-- The tokens before the formula of a statement. -/
inductive Opening.Reads : Opening → List Token → Prop where
  | assign {name operator : Token} : name.kind = .word → operator.kind = .equals →
      Reads (.assign name operator) [name, operator]
  | print {operator : Token} : operator.kind = .print → Reads (.print operator) [operator]
  | printAlias {operator : Token} : operator.kind = .ejprint →
      Reads (.printAlias operator) [operator]

/-- The tokens before an operand, back to where its formula or group begins. -/
inductive Pending.Reads : Option Pending → List Token → Prop where
  | none : Reads none []
  | some {left : Node} {op : Arithmetic} {operator : Token} {tokens : List Token} :
      Prescribes .formula tokens left → operator.kind = op.kind →
      Reads (some ⟨left, op, operator⟩) (tokens ++ [operator])

/-- The tokens of a formula up to the innermost parenthesis that is open. -/
inductive Pending.GroupsRead : List (Option Pending) → List Token → Prop where
  | nil : GroupsRead [] []
  | cons {pending? : Option Pending} {groups : List (Option Pending)}
      {outer waiting : List Token} {opening : Token} : GroupsRead groups outer →
      Pending.Reads pending? waiting → opening.kind = .openParen →
      GroupsRead (pending? :: groups) (outer ++ waiting ++ [opening])

/-- The counters of a formula under way agree with what was read of it. -/
structure Unfinished.Counts (formula : Unfinished) (read : List Kind) : Prop where
  terms : termCount read = formula.terms
  depth : read.count .openParen = read.count .closeParen + formula.groups.length
  limits : WithinLimits read

/-- The tokens of the current statement that lead to a mode. -/
inductive Mode.Reads : Mode → List Token → Prop where
  | statement : Reads .statement []
  | equals {name : Token} : name.kind = .word → Reads (.equals name) [name]
  | aliasName {keyword : Token} : keyword.kind = .ejkey → Reads (.aliasName keyword) [keyword]
  | aliasValue {keyword key : Token} : keyword.kind = .ejkey → key.kind = .word →
      Reads (.aliasValue keyword key) [keyword, key]
  | operand {formula : Unfinished} {pending? : Option Pending}
      {before outer waiting : List Token} : formula.opening.Reads before →
      Pending.GroupsRead formula.groups outer → Pending.Reads pending? waiting →
      formula.Counts ((outer ++ waiting).map Token.kind) →
      Reads (.operand formula pending?) (before ++ (outer ++ waiting))
  | operator {formula : Unfinished} {left : Node} {before outer inner : List Token} :
      formula.opening.Reads before → Pending.GroupsRead formula.groups outer →
      Prescribes .formula inner left → formula.Counts ((outer ++ inner).map Token.kind) →
      Reads (.operator formula left) (before ++ (outer ++ inner))
  | hash {whole : Node} {tokens : List Token} : Prescribes .statement tokens whole →
      WithinLimits (formulaOf (tokens.map Token.kind)) → Reads (.hash whole) tokens
  | semicolon {whole : Node} {tokens : List Token} {hash : Token} :
      Prescribes .statement tokens whole → WithinLimits (formulaOf (tokens.map Token.kind)) →
      hash.kind = .hash → Reads (.semicolon whole) (tokens ++ [hash])

variable {formula : Unfinished} {read : List Kind}

/-- A term completes what waited for it. -/
theorem Pending.Reads.complete {pending? : Option Pending} {waiting tokens : List Token}
    {node : Node} (h : Pending.Reads pending? waiting) (hterm : Prescribes .term tokens node) :
    Prescribes .formula (waiting ++ tokens) (Pending.complete pending? node) := by
  cases h with
  | none => exact .single hterm
  | some hleft hop => simpa [Pending.complete] using Prescribes.chain hleft hop hterm

/-- A formula completes its statement. -/
theorem Opening.Reads.close {opening : Opening} {before tokens : List Token} {node : Node}
    (h : opening.Reads before) (hformula : Prescribes .formula tokens node) :
    Prescribes .statement (before ++ tokens) (opening.close node) := by
  cases h with
  | assign hname hoperator => exact .assign hname hoperator hformula
  | print hoperator => exact .print hoperator hformula
  | printAlias hoperator => exact .printAlias hoperator hformula

theorem Opening.Reads.formulaOf_append {opening : Opening} {before : List Token}
    (h : opening.Reads before) (tokens : List Token) :
    formulaOf ((before ++ tokens).map Token.kind) = tokens.map Token.kind := by
  cases h with
  | assign hname hoperator => simp [hname, hoperator, formulaOf]
  | print hoperator => simp [hoperator, formulaOf]
  | printAlias hoperator => simp [hoperator, formulaOf]

/-! ### Counters -/

namespace Unfinished.Counts

/-- Nothing was read of a formula that is about to begin. -/
theorem start (opening : Opening) : Counts { opening } [] where
  terms := rfl
  depth := rfl
  limits := withinLimits_nil

/-- The nesting is within its limit where a formula stands. -/
theorem groups_length_le (h : formula.Counts read) : formula.groups.length ≤ maxNesting := by
  have hnesting := h.limits.nesting read (List.prefix_refl _)
  have hdepth := h.depth
  omega

theorem terms_le (h : formula.Counts read) : formula.terms ≤ maxTerms := h.terms ▸ h.limits.terms

/-- The counters go on agreeing over a further token if they move with it and keep to the
limits. -/
theorem concat {formula' : Unfinished} {kind : Kind} (h : formula.Counts read)
    (hterms : formula'.terms = formula.terms + termCount [kind])
    (hdepth : formula'.groups.length + [kind].count .closeParen =
      formula.groups.length + [kind].count .openParen)
    (hmax : formula'.terms ≤ maxTerms) (hnest : formula'.groups.length ≤ maxNesting) :
    formula'.Counts (read ++ [kind]) := by
  have hcount : termCount (read ++ [kind]) = formula'.terms := by
    rw [termCount_append, h.terms, hterms]
  have hopened : (read ++ [kind]).count .openParen =
      (read ++ [kind]).count .closeParen + formula'.groups.length := by
    have := h.depth
    simp only [List.count_append]
    omega
  refine ⟨hcount, hopened, by omega, nestsWithin_concat_iff.mpr ⟨h.limits.nesting, ?_⟩⟩
  omega

/-- A leaf is one more term. -/
theorem leaf (h : formula.Counts read) (hmax : formula.terms < maxTerms) {form : Leaf}
    (hform : form ≠ .emoji) :
    Counts { formula with terms := formula.terms + 1 } (read ++ [form.kind]) := by
  refine h.concat ?_ ?_ hmax h.groups_length_le
  · cases form <;> first | rfl | exact absurd rfl hform
  · cases form <;> rfl

/-- An opening parenthesis is one more term and one more group. -/
theorem openGroup (h : formula.Counts read) (hmax : formula.terms < maxTerms)
    (hnest : formula.groups.length < maxNesting) (pending? : Option Pending) :
    Counts { formula with terms := formula.terms + 1, groups := pending? :: formula.groups }
      (read ++ [.openParen]) :=
  h.concat rfl rfl hmax hnest

/-- The sign of an operation counts for nothing. -/
theorem sign (h : formula.Counts read) (op : Arithmetic) : formula.Counts (read ++ [op.kind]) := by
  refine h.concat ?_ ?_ h.terms_le h.groups_length_le
  · cases op <;> rfl
  · cases op <;> rfl

/-- A closing parenthesis ends the innermost group. -/
theorem closeGroup {pending? : Option Pending} {groups : List (Option Pending)}
    (h : formula.Counts read) (hgroups : formula.groups = pending? :: groups) :
    Counts { formula with groups } (read ++ [.closeParen]) := by
  have hlength : formula.groups.length = groups.length + 1 := by rw [hgroups]; rfl
  have hnest := h.groups_length_le
  -- the parenthesis is no term, and takes back the one that the group was counted with
  refine h.concat rfl ?_ h.terms_le ?_
  · show groups.length + 1 = formula.groups.length + 0
    omega
  · show groups.length ≤ maxNesting
    omega

end Unfinished.Counts

/-! ### One step -/

namespace Mode.Reads

variable {mode mode' : Mode} {read : List Token} {token : Token}

/-- The tokens before a formula lead to the place where its first term has to begin. -/
theorem beginFormula {opening : Opening} {before : List Token} (h : opening.Reads before) :
    Mode.Reads (.operand { opening } none) before := by
  have hreads : Mode.Reads (.operand { opening } none) (before ++ ([] ++ [])) :=
    .operand h .nil .none (.start opening)
  simpa using hreads

/-- A term, or the parenthesis of a group, where a term has to begin. -/
theorem term {formula : Unfinished} {pending? : Option Pending} {before outer waiting : List Token}
    (hbefore : formula.opening.Reads before) (houter : Pending.GroupsRead formula.groups outer)
    (hwaiting : Pending.Reads pending? waiting)
    (hcounts : formula.Counts ((outer ++ waiting).map Token.kind))
    (hmax : formula.terms < maxTerms)
    (hterm : Mode.term 0 formula pending? token = .ok mode') :
    mode'.Reads (before ++ (outer ++ waiting) ++ [token]) := by
  simp only [Mode.term] at hterm
  split at hterm
  next hopen =>
    -- a group: what waited so far goes on waiting outside it
    split at hterm
    next hnest =>
      obtain rfl := Except.ok.inj hterm
      have hcounts' := hcounts.openGroup hmax (by simpa using hnest) pending?
      have htokens : before ++ (outer ++ waiting) ++ [token] =
          before ++ (outer ++ waiting ++ [token] ++ []) := by simp
      rw [htokens]
      exact .operand hbefore (.cons houter hwaiting hopen) .none (by simpa [hopen] using hcounts')
    next => cases hterm
  next =>
    split at hterm
    next form hform =>
      obtain rfl := Except.ok.inj hterm
      obtain ⟨hemoji, hkind⟩ := Leaf.ofTerm?_eq_some_iff.mp hform
      have hcounts' := hcounts.leaf hmax hemoji
      have hleft := hwaiting.complete (.leaf hemoji hkind)
      rw [List.append_assoc, List.append_assoc]
      exact .operator hbefore houter hleft (by simpa [hkind] using hcounts')
    next => cases hterm

/-- An operation, the end of a group or the end of the formula, where a term has ended. -/
theorem afterTerm {formula : Unfinished} {left : Node} {before outer inner : List Token}
    (hbefore : formula.opening.Reads before) (houter : Pending.GroupsRead formula.groups outer)
    (hinner : Prescribes .formula inner left)
    (hcounts : formula.Counts ((outer ++ inner).map Token.kind))
    (hafter : Mode.afterTerm formula left token = .ok mode') :
    mode'.Reads (before ++ (outer ++ inner) ++ [token]) := by
  simp only [Mode.afterTerm] at hafter
  split at hafter
  next op hop =>
    obtain rfl := Except.ok.inj hafter
    have hkind := Arithmetic.ofKind?_eq_some_iff.mp hop
    have hcounts' := hcounts.sign op
    rw [List.append_assoc, List.append_assoc]
    exact .operand hbefore houter (.some hinner hkind) (by simpa [hkind] using hcounts')
  next =>
    split at hafter
    next pending? groups hgroups =>
      split at hafter
      next hclose =>
        -- the group becomes a term of the formula or group around it
        obtain rfl := Except.ok.inj hafter
        rw [hgroups] at houter
        cases houter with
        | @cons _ _ outer waiting opening houter hwaiting hopen =>
          have hcounts' := hcounts.closeGroup hgroups
          have hleft := hwaiting.complete (.group hopen hinner hclose)
          have htokens : before ++ (outer ++ waiting ++ [opening] ++ inner) ++ [token] =
              before ++ (outer ++ (waiting ++ opening :: (inner ++ [token]))) := by simp
          rw [htokens]
          exact .operator hbefore houter hleft (by simpa [hclose] using hcounts')
      next => cases hafter
    next hgroups =>
      split at hafter
      next hhash =>
        obtain rfl := Except.ok.inj hafter
        rw [hgroups] at houter
        cases houter with
        | nil =>
          have hlimits : WithinLimits (formulaOf ((before ++ inner).map Token.kind)) := by
            rw [hbefore.formulaOf_append]
            exact hcounts.limits
          simpa using Mode.Reads.semicolon (hbefore.close hinner) hlimits hhash
      next => cases hafter

/-- **One step.** The tokens that lead to a mode, and the token that leads on to the next mode,
lead to that mode. -/
theorem next (h : mode.Reads read) (hnext : mode.next 0 token = .ok mode') :
    mode'.Reads (read ++ [token]) := by
  cases h with
  | statement =>
    simp only [Mode.next] at hnext
    split at hnext
    next hkind => obtain rfl := Except.ok.inj hnext; exact .equals hkind
    next hkind => obtain rfl := Except.ok.inj hnext; exact .aliasName hkind
    next hkind =>
      obtain rfl := Except.ok.inj hnext
      exact beginFormula (.print hkind)
    next hkind =>
      obtain rfl := Except.ok.inj hnext
      exact beginFormula (.printAlias hkind)
    next => cases hnext
  | equals hname =>
    simp only [Mode.next] at hnext
    split at hnext
    next hkind =>
      obtain rfl := Except.ok.inj hnext
      exact beginFormula (.assign hname hkind)
    next => cases hnext
  | aliasName hkeyword =>
    simp only [Mode.next] at hnext
    split at hnext
    next hkind => obtain rfl := Except.ok.inj hnext; exact .aliasValue hkeyword hkind
    next => cases hnext
  | aliasValue hkeyword hkey =>
    simp only [Mode.next] at hnext
    split at hnext
    next form hform =>
      obtain rfl := Except.ok.inj hnext
      obtain ⟨hnumber, hkind⟩ := Leaf.ofAliasValue?_eq_some_iff.mp hform
      refine .hash (.defineAlias hkeyword hkey hnumber hkind) ?_
      simpa [hkeyword, formulaOf] using withinLimits_nil
    next => cases hnext
  | operand hbefore houter hwaiting hcounts =>
    simp only [Mode.next] at hnext
    split at hnext
    next hmax => exact term hbefore houter hwaiting hcounts hmax hnext
    next => cases hnext
  | operator hbefore houter hinner hcounts => exact afterTerm hbefore houter hinner hcounts hnext
  | hash hwhole hlimits =>
    simp only [Mode.next] at hnext
    split at hnext
    next hkind => obtain rfl := Except.ok.inj hnext; exact .semicolon hwhole hlimits hkind
    next => cases hnext
  | semicolon => cases hnext

end Mode.Reads

/-! ### Soundness -/

namespace Reading

/-- A step ends a statement, or goes on within one. -/
theorem step_cases {base : Nat} {done : List Node} {mode : Mode} {token : Token}
    {reading : Reading} (h : step base ⟨done, mode⟩ token = .ok reading) :
    (∃ whole, mode = .semicolon whole ∧ token.kind = .semicolon ∧
      reading = ⟨whole :: done, .statement⟩) ∨
    (∃ mode', mode.next base token = .ok mode' ∧ reading = ⟨done, mode'⟩) := by
  unfold step at h
  split at h
  next _ _ whole hmode hkind => exact .inl ⟨whole, hmode, hkind, (Except.ok.inj h).symm⟩
  next =>
    dsimp only at h
    cases hnext : mode.next base token with
    | ok mode' =>
      rw [hnext] at h
      exact .inr ⟨mode', rfl, (Except.ok.inj h).symm⟩
    | error =>
      rw [hnext] at h
      cases h

/-- Reading may end only between statements. -/
theorem missing?_eq_none {reading : Reading} (h : reading.missing? = none) :
    reading.mode = .statement := by
  unfold missing? at h
  split at h
  next hmode => exact hmode
  next => cases h

/-- A statement with its end is a program in front of a program, and keeps to the limits for
itself. -/
theorem prescribes_fits_next {tokens rest : List Token} {hash semicolon : Token} {whole : Node}
    {statements : List Node} (hwhole : Prescribes .statement tokens whole)
    (hlimits : WithinLimits (formulaOf (tokens.map Token.kind))) (hhash : hash.kind = .hash)
    (hsemicolon : semicolon.kind = .semicolon)
    (hrest : Prescribes .program rest (.program statements))
    (hfits : Fits (rest.map Token.kind)) :
    Prescribes .program (tokens ++ hash :: semicolon :: rest) (.program (whole :: statements)) ∧
      Fits ((tokens ++ hash :: semicolon :: rest).map Token.kind) := by
  have hfree := semicolon_notMem_of_derives (derives_of_prescribes hwhole) (by decide)
  refine ⟨.next hwhole hhash hsemicolon hrest, ?_⟩
  simpa [hhash, hsemicolon] using (fits_next_iff hfree).mpr ⟨hlimits, hfits⟩

/-- **Soundness.** A reading that comes to the end of the tokens without failure adds statements
that the grammar prescribes for what was read of the current one and all that follows. -/
theorem prescribes_of_run {rest : List Token} {mode : Mode} {read : List Token} {done : List Node}
    (hread : mode.Reads read) (hrun : (run 0 ⟨done, mode⟩ rest).failure? = none) :
    ∃ statements, (run 0 ⟨done, mode⟩ rest).reading.done.reverse = done.reverse ++ statements ∧
      Prescribes .program (read ++ rest) (.program statements) ∧
      Fits ((read ++ rest).map Token.kind) := by
  -- on the tokens that are left; what was read of the statement is carried by the mode
  induction rest generalizing mode read done with
  | nil =>
    obtain rfl : mode = .statement := missing?_eq_none hrun
    -- between statements nothing of the current one has been read
    cases hread
    exact ⟨[], by simp [run], .done, fits_nil⟩
  | cons token rest ih =>
    cases hstep : step 0 ⟨done, mode⟩ token with
    | error => simp [run, hstep] at hrun
    | ok reading =>
      simp only [run, hstep] at hrun ⊢
      rcases step_cases hstep with ⟨whole, rfl, hkind, rfl⟩ | ⟨mode', hnext, rfl⟩
      · -- the token ends a statement: what follows is read as a program of its own
        obtain ⟨statements, hdone, hrest, hfits⟩ := ih .statement hrun
        cases hread with
        | @semicolon _ tokens hash hwhole hlimits hhash =>
          obtain ⟨htree, hfits⟩ :=
            prescribes_fits_next hwhole hlimits hhash hkind hrest hfits
          exact ⟨whole :: statements, by simpa using hdone, by simpa using htree,
            by simpa using hfits⟩
      · obtain ⟨statements, hdone, htree, hfits⟩ := ih (hread.next hnext) hrun
        exact ⟨statements, hdone, by simpa using htree, by simpa using hfits⟩

end Reading

end EmojiScript
