import EmojiScript.Proofs.Evaluation.Formulas
import EmojiScript.Proofs.Relocation

namespace EmojiScript

/-!
# Evaluating trees whose tokens stand elsewhere

A run looks at the texts of tokens and at no places.  Only the faults of operations name a line,
that of the operator.  So the tree of a program with its tokens elsewhere does the same to every
machine, and stops with the same fault elsewhere.

* `Eval.Relocates` — two evaluations that differ in the places of their faults only.
* `Node.IsFormula.outcome_relocate`, `Node.IsStatement.relocates` — formulas and statements.
* `Node.relocates_run` — programs.
-/

variable {σ α β : Type} {move : Relocation}

/-! ### Evaluations with faults elsewhere -/

namespace Eval

/-- The second evaluation does the same as the first, and its faults are those of the first
elsewhere. -/
def Relocates (move : Relocation) (eval moved : Eval σ α) : Prop := ∀ machine,
  moved.runOn machine =
    ((eval.runOn machine).1.mapError (Fault.relocate move), (eval.runOn machine).2)

theorem Relocates.bind {eval moved : Eval σ α} {next next' : α → Eval σ β}
    (h : eval.Relocates move moved) (hnext : ∀ a, (next a).Relocates move (next' a)) :
    (eval >>= next).Relocates move (moved >>= next') := by
  intro machine
  rw [runOn_bind, h machine]
  rcases runOn_bind_cases eval next machine with
    ⟨a, between, hrun, hbind⟩ | ⟨fault, after, hrun, hbind⟩
  · rw [hrun, hbind]
    exact hnext a between
  · rw [hrun, hbind]
    rfl

theorem Relocates.map {eval moved : Eval σ α} (h : eval.Relocates move moved) (f : α → β) :
    (f <$> eval).Relocates move (f <$> moved) := by
  rw [map_eq_pure_bind, map_eq_pure_bind]
  exact h.bind fun _ _ => rfl

theorem relocates_pure (a : α) : Relocates move (pure a : Eval σ α) (pure a) := fun _ => rfl

theorem relocates_define (name : String) (value : Value) :
    Relocates move (define name value : Eval σ Unit) (define name value) := fun _ => rfl

theorem relocates_defineAlias (key text : String) :
    Relocates move (defineAlias key text : Eval σ Unit) (defineAlias key text) := fun _ => rfl

theorem relocates_shown (key : String) :
    Relocates move (shown key : Eval σ String) (shown key) := fun _ => rfl

/-- The faults of a sink name no place. -/
theorem relocates_onSink (ask : σ → Except String Unit × σ) :
    Relocates move (onSink ask) (onSink ask) := by
  intro machine
  rw [runOn_onSink]
  cases (ask machine.sink).1 <;> rfl

theorem relocates_writeLine [Sink σ] (text : String) :
    Relocates move (writeLine text : Eval σ Unit) (writeLine text) :=
  (relocates_onSink _).bind fun _ => relocates_onSink _

end Eval

/-! ### Formulas -/

theorem Leaf.outcome_relocate (scope : Scope) (form : Leaf) (token : Token) :
    form.outcome scope (token.relocate move) =
      (form.outcome scope token).mapError (Fault.relocate move) := by
  cases form with
  | number =>
    simp only [outcome, Token.text_relocate]
    cases Numeral.read? token.text <;> rfl
  | text | emoji => rfl
  | word =>
    simp only [outcome, Token.text_relocate]
    cases scope.get? token.text <;> rfl

/-- The fault of an operation names the line of its operator. -/
theorem Arithmetic.apply_relocate (op : Arithmetic) (operator : Token) (a b : Value) :
    op.apply (operator.relocate move) a b =
      (op.apply operator a b).mapError (Fault.relocate move) := by
  cases a with
  | int m =>
    cases b with
    | int n =>
      simp only [apply]
      cases op.words? m n <;> rfl
    | text => cases op <;> rfl
  | text =>
    cases b with
    | int => cases op <;> rfl
    | text => cases op <;> rfl

namespace Node

theorem IsFormula.relocate {node : Node} (h : node.IsFormula) :
    (node.relocate move).IsFormula := by
  induction h with
  | leaf hform hkind => exact .leaf hform hkind
  | formula hoperator _ _ ihleft ihright => exact .formula hoperator ihleft ihright

/-- **Formulas elsewhere** have the same values, and the same faults elsewhere. -/
theorem IsFormula.outcome_relocate {node : Node} (h : node.IsFormula) (scope : Scope) :
    (node.relocate move).outcome scope =
      (node.outcome scope).mapError (Fault.relocate move) := by
  induction h with
  | leaf => exact Leaf.outcome_relocate scope _ _
  | @formula op operator left right _ _ _ ihleft ihright =>
    rw [Node.relocate, outcome, outcome, ihleft, ihright]
    cases left.outcome scope with
    | error => rfl
    | ok a =>
      cases right.outcome scope with
      | error => rfl
      | ok b => exact op.apply_relocate operator a b

variable [Sink σ]

theorem IsFormula.relocates_value {node : Node} (h : node.IsFormula) :
    Eval.Relocates move (node.value : Eval σ Value) (node.relocate move).value := by
  intro machine
  rw [h.relocate.runOn_value, h.runOn_value, h.outcome_relocate]

/-! ### Statements -/

/-- The key of a formula elsewhere. -/
theorem IsFormula.relocates_keyOf {node : Node} (h : node.IsFormula) :
    Eval.Relocates move (node.keyOf node.value : Eval σ String)
      ((node.relocate move).keyOf (node.relocate move).value) := by
  have hvalue : Eval.Relocates move (node.value : Eval σ Value) (node.relocate move).value :=
    h.relocates_value
  cases h with
  | @leaf form token =>
    cases form with
    | word => exact Eval.relocates_pure _
    | _ => exact hvalue.map _
  | formula => exact hvalue.map _

/-- What a leaf elsewhere gives to an alias. -/
theorem relocates_aliasText_leaf (form : Leaf) (token : Token) :
    Eval.Relocates move ((leaf form token).aliasText (leaf form token).value : Eval σ String)
      ((leaf form (token.relocate move)).aliasText (leaf form (token.relocate move)).value) := by
  have hvalue : Eval.Relocates move ((leaf form token).value : Eval σ Value)
      (leaf form (token.relocate move)).value := by
    intro machine
    rw [value_leaf, value_leaf, Leaf.runOn_evaluate, Leaf.runOn_evaluate, Leaf.outcome_relocate]
  cases form with
  | emoji | word => exact Eval.relocates_pure _
  | _ => exact hvalue.map _

/-- **Statements elsewhere** do the same, and fail with the same faults elsewhere. -/
theorem IsStatement.relocates {statement : Node} (h : statement.IsStatement) :
    Eval.Relocates move (statement.evaluate : Eval σ _) (statement.relocate move).evaluate := by
  cases h with
  | assign _ _ hvalue =>
    rw [relocate, relocate, evaluate_assign, evaluate_assign]
    refine Eval.Relocates.map ?_ _
    refine hvalue.relocates_value.bind ?_
    intro value
    exact (Eval.relocates_define _ _).bind fun _ => Eval.relocates_pure _
  | @defineAlias _ key shown form =>
    rw [relocate, relocate, relocate, evaluate_defineAlias, evaluate_defineAlias]
    -- the key is a name and stands for itself
    refine (Eval.relocates_pure key.text).bind ?_
    intro key
    refine (relocates_aliasText_leaf form shown).bind ?_
    intro text
    exact (Eval.relocates_defineAlias _ _).bind fun _ => Eval.relocates_pure _
  | print _ hoperand =>
    rw [relocate, evaluate_print, evaluate_print]
    refine hoperand.relocates_value.bind ?_
    intro value
    exact (Eval.relocates_writeLine _).bind fun _ => Eval.relocates_pure _
  | printAlias _ hoperand =>
    rw [relocate, evaluate_printAlias, evaluate_printAlias]
    refine hoperand.relocates_keyOf.bind ?_
    intro key
    refine (Eval.relocates_shown key).bind ?_
    intro shown
    exact (Eval.relocates_writeLine _).bind fun _ => Eval.relocates_pure _

/-! ### Programs -/

theorem relocates_evaluateAll {statements : List Node}
    (h : ∀ statement ∈ statements, statement.IsStatement) :
    Eval.Relocates move (evaluateAll statements : Eval σ Unit)
      (evaluateAll (statements.map (relocate move))) := by
  induction statements with
  | nil => exact Eval.relocates_pure ()
  | cons statement rest ih =>
    obtain ⟨hstatement, hrest⟩ := List.forall_mem_cons.mp h
    rw [List.map_cons, evaluateAll_cons, evaluateAll_cons]
    exact hstatement.relocates.bind fun _ => ih hrest

/-- **Programs elsewhere** run as they do anywhere, but for the places of their faults. -/
theorem relocates_run {statements : List Node}
    (h : ∀ statement ∈ statements, statement.IsStatement) :
    Eval.Relocates move ((program statements).run : Eval σ Unit)
      (program (statements.map (relocate move))).run := by
  rw [run, run, evaluate_program, evaluate_program]
  refine Eval.Relocates.bind ?_ fun _ => Eval.relocates_onSink _
  exact (relocates_evaluateAll h).bind fun _ => Eval.relocates_pure _

end Node

end EmojiScript
