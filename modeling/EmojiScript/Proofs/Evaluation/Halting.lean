import EmojiScript.Proofs.Evaluation.Formulas

namespace EmojiScript

/-!
# What a failed run leaves behind

Formulas that were read from tokens only look variables up, so a statement has no effect before its
last step, and a fault in it leaves the machine as the statement found it.  Only a sink may keep
something of a line that it refused.  A run is stopped by the first statement that fails, and is
otherwise flushed once.

* `Node.IsFormula.effectless_value`, `Node.IsStatement.atomic` — what the nodes of a program are.
* `Node.Succeed` — statements that succeed one after the other.
* `Node.evaluateAll_cases` — a list of statements succeeds, or one of them stops it.
* `run_stops_or_finishes` — whole programs.
-/

variable {σ : Type}

/-! ### Formulas -/

namespace Node

theorem effectless_keyOf (node : Node) {value : Eval σ Value} (h : value.Effectless) :
    (node.keyOf value).Effectless := by
  unfold keyOf
  split
  · exact Eval.effectless_pure _
  · exact h.map _

theorem effectless_aliasText (node : Node) {value : Eval σ Value} (h : value.Effectless) :
    (node.aliasText value).Effectless := by
  unfold aliasText
  split
  · exact Eval.effectless_pure _
  · exact Eval.effectless_pure _
  · exact h.map _

variable [Sink σ]

theorem effectless_value_leaf (form : Leaf) (token : Token) :
    Eval.Effectless ((leaf form token).value : Eval σ Value) := by
  intro machine
  rw [value_leaf, form.runOn_evaluate]

/-- **Formulas have no effect.** -/
theorem IsFormula.effectless_value {node : Node} (h : node.IsFormula) :
    Eval.Effectless (node.value : Eval σ Value) := by
  intro machine
  rw [h.runOn_value]

/-! ### Statements -/

theorem writes_line (text : String) :
    Eval.Writes (do Eval.writeLine text; return none : Eval σ (Option Value)) :=
  (Eval.writes_writeLine text).bind fun _ => Eval.writes_pure _

/-- **Statements take effect only where they succeed.** -/
theorem IsStatement.atomic {statement : Node} (h : statement.IsStatement) :
    Eval.Atomic (statement.evaluate : Eval σ _) := by
  cases h with
  | assign _ _ hvalue =>
    rw [evaluate_assign]
    refine Eval.Atomic.map ?_ _
    -- behind the value there is nothing that can fail
    refine hvalue.effectless_value.bind_atomic ?_
    intro value
    exact Eval.atomic_of_ok fun machine => ⟨value, rfl⟩
  | @defineAlias _ key shown form =>
    rw [evaluate_defineAlias]
    -- key and text are leaves, and the entry is made behind both
    have hkey := effectless_value_leaf (σ := σ) .word key
    have hshown := effectless_value_leaf (σ := σ) form shown
    refine (effectless_keyOf _ hkey).bind_atomic ?_
    intro key
    refine (effectless_aliasText _ hshown).bind_atomic ?_
    intro text
    exact Eval.atomic_of_ok fun machine => ⟨none, rfl⟩
  | print _ hoperand =>
    rw [evaluate_print]
    -- the line is the last step, and only the sink can refuse it
    refine hoperand.effectless_value.bind_atomic ?_
    intro value
    exact (writes_line _).atomic
  | printAlias _ hoperand =>
    rw [evaluate_printAlias]
    refine (effectless_keyOf _ hoperand.effectless_value).bind_atomic ?_
    intro key
    refine (Eval.effectless_shown key).bind_atomic ?_
    intro shown
    exact (writes_line _).atomic

/-! ### Lists of statements -/

/-- Statements succeed one after the other, and take the first machine to the second. -/
inductive Succeed : List Node → Machine σ → Machine σ → Prop where
  | nil (machine : Machine σ) : Succeed [] machine machine
  | cons {statement : Node} {rest : List Node} {machine next last : Machine σ}
      {value? : Option Value} : statement.evaluate.runOn machine = (.ok value?, next) →
      Succeed rest next last → Succeed (statement :: rest) machine last

variable {statements : List Node} {machine before after : Machine σ} {fault : Fault}

/-- Statements succeed behind others on the machine that these leave. -/
theorem succeed_append_iff {others : List Node} :
    Succeed (statements ++ others) machine after ↔
      ∃ between, Succeed statements machine between ∧ Succeed others between after := by
  constructor
  · intro h
    induction statements generalizing machine with
    | nil => exact ⟨machine, .nil machine, h⟩
    | cons statement rest ih =>
      cases h with
      | cons hrun hrest =>
        obtain ⟨between, hstatements, hothers⟩ := ih hrest
        exact ⟨between, .cons hrun hstatements, hothers⟩
  · rintro ⟨between, hstatements, hothers⟩
    induction hstatements with
    | nil => exact hothers
    | cons hrun _ ih => exact .cons hrun (ih hothers)

theorem Succeed.runOn_evaluateAll (h : Succeed statements machine after) :
    (evaluateAll statements).runOn machine = (.ok (), after) := by
  induction h with
  | nil => rfl
  | cons hrun _ ih =>
    rw [evaluateAll_cons, Eval.runOn_bind, hrun]
    exact ih

/-- A statement that fails ends the run, whatever stands behind it. -/
theorem Succeed.runOn_evaluateAll_of_error {earlier : List Node} {statement : Node}
    (h : Succeed earlier machine before)
    (hfault : statement.evaluate.runOn before = (.error fault, after)) (others : List Node) :
    (evaluateAll (earlier ++ statement :: others)).runOn machine = (.error fault, after) := by
  induction h with
  | nil =>
    rw [List.nil_append, evaluateAll_cons, Eval.runOn_bind, hfault]
  | cons hrun _ ih =>
    rw [List.cons_append, evaluateAll_cons, Eval.runOn_bind, hrun]
    exact ih hfault

/-- Statements all succeed, or there is a first one that fails. -/
theorem evaluateAll_cases (statements : List Node) (machine : Machine σ) :
    (∃ done, Succeed statements machine done) ∨
      ∃ earlier statement later before fault after, statements = earlier ++ statement :: later ∧
        Succeed earlier machine before ∧
        statement.evaluate.runOn before = (.error fault, after) := by
  -- the first statement that fails is searched from the front, on the machine that it finds
  induction statements generalizing machine with
  | nil => exact .inl ⟨machine, .nil machine⟩
  | cons statement rest ih =>
    cases hrun : statement.evaluate.runOn machine with
    | mk result next =>
      cases result with
      | error fault =>
        exact .inr ⟨[], statement, rest, machine, fault, next, rfl, .nil machine, hrun⟩
      | ok value? =>
        rcases ih next with ⟨done, hdone⟩ | ⟨earlier, failing, later, before, fault, after, hstop⟩
        · exact .inl ⟨done, .cons hrun hdone⟩
        · obtain ⟨rfl, hearlier, hfault⟩ := hstop
          exact .inr ⟨statement :: earlier, failing, later, before, fault, after, rfl,
            .cons hrun hearlier, hfault⟩

/-! ### Programs -/

/-- A program whose statements all succeed ends with a flush. -/
theorem Succeed.runOn_run (h : Succeed statements machine after) :
    (program statements).run.runOn machine =
      ((Sink.flush after.sink).1.mapError .sink,
        { after with sink := (Sink.flush after.sink).2 }) := by
  rw [run, evaluate_program, bind_assoc, Eval.runOn_bind, h.runOn_evaluateAll]
  rfl

/-- A program is stopped where its statements are, without a flush. -/
theorem Succeed.runOn_run_of_error {earlier : List Node} {statement : Node}
    (h : Succeed earlier machine before)
    (hfault : statement.evaluate.runOn before = (.error fault, after)) (others : List Node) :
    (program (earlier ++ statement :: others)).run.runOn machine = (.error fault, after) := by
  rw [run, evaluate_program, bind_assoc, Eval.runOn_bind,
    h.runOn_evaluateAll_of_error hfault others]

/-- A run that succeeds leaves what its statements leave. -/
theorem exists_succeed_of_runOn_run {done : Machine σ}
    (h : (program statements).run.runOn machine = (.ok (), done)) :
    ∃ last, Succeed statements machine last ∧ done.context = last.context := by
  rcases evaluateAll_cases statements machine with
    ⟨last, hlast⟩ | ⟨earlier, statement, later, before, fault, after, rfl, hearlier, hfails⟩
  · rw [hlast.runOn_run] at h
    obtain ⟨_, rfl⟩ := Prod.mk.inj h
    exact ⟨last, hlast, rfl⟩
  · rw [hearlier.runOn_run_of_error hfails] at h
    cases h

/-- A statement stops a run, whatever stands behind it.  It leaves the context as it found it and,
unless the fault is that of the sink, the sink as well. -/
structure Stops (earlier : List Node) (statement : Node) (machine before after : Machine σ)
    (fault : Fault) : Prop where
  succeed : Succeed earlier machine before
  fails : statement.evaluate.runOn before = (.error fault, after)
  context_eq : after.context = before.context
  sink_eq : (∀ reason, fault ≠ .sink reason) → after.sink = before.sink
  run_eq : ∀ others,
    (program (earlier ++ statement :: others)).run.runOn machine = (.error fault, after)

/-- All statements of a run succeed, and the machine that they leave is flushed. -/
structure Finishes (statements : List Node) (machine done : Machine σ) : Prop where
  succeed : Succeed statements machine done
  run_eq : (program statements).run.runOn machine =
    ((Sink.flush done.sink).1.mapError .sink, { done with sink := (Sink.flush done.sink).2 })

/-- A run of statements is stopped by one of them or finishes. -/
theorem stops_or_finishes (hstatements : ∀ statement ∈ statements, statement.IsStatement)
    (machine : Machine σ) :
    (∃ earlier statement later before after fault, statements = earlier ++ statement :: later ∧
      Stops earlier statement machine before after fault) ∨
    ∃ done, Finishes statements machine done := by
  rcases evaluateAll_cases statements machine with
    ⟨done, hdone⟩ | ⟨earlier, statement, later, before, fault, after, rfl, hearlier, hfault⟩
  · exact .inr ⟨done, hdone, hdone.runOn_run⟩
  · obtain ⟨hcontext, hsink⟩ := (hstatements statement (by simp)).atomic before fault after hfault
    exact .inl ⟨earlier, statement, later, before, after, fault, rfl, hearlier, hfault, hcontext,
      hsink, hearlier.runOn_run_of_error hfault⟩

end Node

/-- **Runs of programs.** A program that was read from tokens is stopped by a statement that takes
no effect, on the machine of the statements before it, or all its statements succeed and nothing
but the flush at its end can fail. -/
theorem run_stops_or_finishes [Sink σ] {tokens : List Token} {program : Node}
    (h : parse tokens = .ok program) :
    ∃ statements, program = .program statements ∧ ∀ machine : Machine σ,
      (∃ earlier statement later before after fault, statements = earlier ++ statement :: later ∧
        Node.Stops earlier statement machine before after fault) ∨
      ∃ done, Node.Finishes statements machine done := by
  obtain ⟨statements, rfl, hstatements⟩ := exists_statements_of_parse h
  exact ⟨statements, rfl, Node.stops_or_finishes hstatements⟩

/-- The statement of the program `print x #;`. -/
def printMissing : Node := .print ⟨.print, "print", ⟨0, 1⟩⟩ (.leaf .word ⟨.word, "x", ⟨6, 1⟩⟩)

/-- The tokens of that program. -/
def printMissingTokens : List Token :=
  [⟨.print, "print", ⟨0, 1⟩⟩, ⟨.word, "x", ⟨6, 1⟩⟩, ⟨.hash, "#", ⟨8, 1⟩⟩, ⟨.semicolon, ";", ⟨9, 1⟩⟩]

theorem printMissing_stops :
    parse printMissingTokens = .ok (.program [printMissing]) ∧
      ∃ before after fault,
        Node.Stops [] printMissing ({ sink := {} } : Machine Buffer) before after fault := by
  have hparse : parse printMissingTokens = .ok (.program [printMissing]) := rfl
  refine ⟨hparse, ?_⟩
  obtain ⟨statements, hprogram, hruns⟩ := run_stops_or_finishes (σ := Buffer) hparse
  obtain rfl := Node.program.inj hprogram
  -- the only statement reads a variable that a fresh context does not hold
  rcases hruns { sink := {} } with
    ⟨earlier, statement, later, before, after, fault, hsplit, hstops⟩ | ⟨done, hfinishes⟩
  · have hearlier : earlier = [] := by
      cases earlier with
      | nil => rfl
      | cons => simp at hsplit
    subst hearlier
    obtain ⟨rfl, _⟩ := List.cons.inj hsplit
    exact ⟨before, after, fault, hstops⟩
  · have hfails : printMissing.evaluate.runOn ({ sink := {} } : Machine Buffer) =
        (.error (.undefinedVariable "x"), { sink := {} }) := rfl
    cases hfinishes.succeed with
    | cons hrun _ =>
      rw [hfails] at hrun
      cases hrun

end EmojiScript
