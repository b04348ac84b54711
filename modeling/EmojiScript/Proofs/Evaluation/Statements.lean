import EmojiScript.Proofs.Evaluation.Formulas

namespace EmojiScript

/-!
# Statements as functions of the context

A statement that was read from tokens asks its formula for a value and has one effect behind it: it
stores the value, gives a key its alias, or writes a line.  So what it does is a function of the
context, but for what the sink says to the line.

* `Node.effect` — what a statement does in a context, or the fault of its formula.
* `Node.IsStatement.runOn_evaluate` — its evaluation on a machine.
* `Node.IsStatement.evaluate_cases` — its evaluation fails, is refused its line, or succeeds.
-/

/-- What a statement does in a context. -/
structure Effect where
  /-- The value that it produces, if it does. -/
  value? : Option Value := none
  /-- The context that it leaves. -/
  context : Context
  /-- The line that it writes, if it does. -/
  line? : Option String := none

variable {σ : Type}

namespace Node

/-- The text that a node stands for as a key or as an alias: a name stands for itself, any other
node for the text of its value. -/
def nameIn (scope : Scope) : Node → Except Fault String
  | leaf .word name => .ok name.text
  | node => (node.outcome scope).map Value.toText

theorem nameIn_of_ne_word {node : Node} (h : ∀ name, node ≠ leaf .word name) (scope : Scope) :
    node.nameIn scope = (node.outcome scope).map Value.toText := by
  rw [nameIn]
  exact h

/-- A key is the text that its node stands for. -/
theorem runOn_keyOf (node : Node) {value : Eval σ Value} {machine : Machine σ}
    (h : value.runOn machine = (node.outcome machine.context.scope, machine)) :
    (node.keyOf value).runOn machine = (node.nameIn machine.context.scope, machine) := by
  unfold keyOf
  split
  next => rfl
  next hother => rw [Eval.runOn_map, h, nameIn_of_ne_word hother]

/-- The text of an alias is the text that its node stands for, an emoji being its own value. -/
theorem runOn_aliasText (node : Node) {value : Eval σ Value} {machine : Machine σ}
    (h : value.runOn machine = (node.outcome machine.context.scope, machine)) :
    (node.aliasText value).runOn machine = (node.nameIn machine.context.scope, machine) := by
  unfold aliasText
  split
  next => rfl
  next => rfl
  next _ hother => rw [Eval.runOn_map, h, nameIn_of_ne_word hother]

/-- What a statement does in a context, or the fault of its formula. -/
def effect (context : Context) : Node → Except Fault Effect
  | assign _ (leaf .word name) value =>
    (value.outcome context.scope).map fun value =>
      { value? := some value, context := context.define name.text value }
  | defineAlias _ key shown => do
    let key ← key.nameIn context.scope
    let text ← shown.nameIn context.scope
    return { context := context.defineAlias key text }
  | print _ operand =>
    (operand.outcome context.scope).map fun value => { context, line? := some value.toText }
  | printAlias _ operand =>
    (operand.nameIn context.scope).map fun key =>
      { context, line? := some (context.aliases.shown key) }
  | node =>
    (node.outcome context.scope).map fun value => { value? := some value, context }

/-- A result that is only passed on fails where it is found. -/
theorem eq_error_of_map {ε α β : Type} {f : α → β} {result : Except ε α} {fault : ε}
    (h : result.map f = .error fault) : result = .error fault := by
  cases result with
  | ok => cases h
  | error =>
    cases h
    rfl

/-- A result that is only passed on is found first. -/
theorem exists_of_map_ok {ε α β : Type} {f : α → β} {result : Except ε α} {b : β}
    (h : result.map f = .ok b) : ∃ a, result = .ok a ∧ f a = b := by
  cases result with
  | ok a => exact ⟨a, rfl, Except.ok.inj h⟩
  | error => cases h

/-- The text that a node stands for is wanting only where its value is. -/
theorem outcome_of_nameIn_error {node : Node} {scope : Scope} {fault : Fault}
    (h : node.nameIn scope = .error fault) : node.outcome scope = .error fault := by
  unfold nameIn at h
  split at h
  next => cases h
  next => exact eq_error_of_map h

/-- What keeps a statement from its effect is the fault of its formula. -/
theorem IsStatement.exists_formula_of_effect_error {statement : Node} (h : statement.IsStatement)
    {context : Context} {fault : Fault} (heffect : statement.effect context = .error fault) :
    ∃ formula, statement.formula? = some formula ∧ formula.outcome context.scope = .error fault := by
  cases h with
  | assign => exact ⟨_, rfl, eq_error_of_map heffect⟩
  | @defineAlias keyword key shown form hkeyword hkey hform =>
    -- a leaf that is no numeral has a text
    cases form with
    | number => exact absurd rfl hform
    | _ => cases heffect
  | print => exact ⟨_, rfl, eq_error_of_map heffect⟩
  | printAlias => exact ⟨_, rfl, outcome_of_nameIn_error (eq_error_of_map heffect)⟩

end Node

variable [Sink σ]

namespace Effect

/-- Writes the line of an effect, if it has one. -/
def perform (effect : Effect) : Eval σ (Option Value) :=
  match effect.line? with
  | none => return effect.value?
  | some line => do
    Eval.writeLine line
    return effect.value?

theorem writes_perform (effect : Effect) : Eval.Writes (effect.perform : Eval σ _) := by
  unfold perform
  split
  · exact Eval.writes_pure _
  · exact (Eval.writes_writeLine _).bind fun _ => Eval.writes_pure _

/-- A value that comes out of an effect is its own. -/
theorem eq_of_perform {effect : Effect} {machine after : Machine σ} {value? : Option Value}
    (h : effect.perform.runOn machine = (.ok value?, after)) : value? = effect.value? := by
  unfold perform at h
  split at h
  · cases h
    rfl
  next line _ =>
    rcases Eval.runOn_bind_cases (Eval.writeLine line) (fun _ => pure effect.value?) machine with
      ⟨_, between, _, hbind⟩ | ⟨fault, between, _, hbind⟩
    · rw [hbind] at h
      cases h
      rfl
    · rw [hbind] at h
      cases h

/-- Only the sink can refuse an effect, and the context stays in either case. -/
theorem perform_cases (effect : Effect) (machine : Machine σ) :
    ∃ after, after.context = machine.context ∧
      (effect.perform.runOn machine = (.ok effect.value?, after) ∨
        ∃ reason, effect.perform.runOn machine = (.error (.sink reason), after)) := by
  obtain ⟨hcontext, hsink⟩ := effect.writes_perform machine
  rcases hrun : effect.perform.runOn machine with ⟨fault | value?, after⟩
  · rw [hrun] at hcontext hsink
    obtain ⟨reason, rfl⟩ := hsink fault rfl
    exact ⟨after, hcontext, .inr ⟨reason, rfl⟩⟩
  · rw [hrun] at hcontext
    obtain rfl := eq_of_perform hrun
    exact ⟨after, hcontext, .inl rfl⟩

end Effect

namespace Node

/-- **Statements are functions of the context**, but for what the sink says to their line. -/
theorem IsStatement.runOn_evaluate {statement : Node} (h : statement.IsStatement)
    (machine : Machine σ) :
    statement.evaluate.runOn machine =
      match statement.effect machine.context with
      | .error fault => (.error fault, machine)
      | .ok effect => effect.perform.runOn { machine with context := effect.context } := by
  cases h with
  | @assign name operator value _ _ hvalue =>
    rw [evaluate_assign, Eval.runOn_map, Eval.runOn_bind, hvalue.runOn_value]
    simp only [effect]
    cases value.outcome machine.context.scope <;> rfl
  | @defineAlias keyword key shown form =>
    have hshown : ((leaf form shown).value : Eval σ _).runOn machine =
        ((leaf form shown).outcome machine.context.scope, machine) := by
      rw [value_leaf, Leaf.runOn_evaluate, outcome]
    -- the key is a name and stands for itself
    rw [evaluate_defineAlias, Eval.runOn_bind]
    show Eval.runOn _ machine = _
    rw [Eval.runOn_bind, runOn_aliasText _ hshown]
    simp only [effect]
    cases (leaf form shown).nameIn machine.context.scope <;> rfl
  | @print operator operand _ hoperand =>
    rw [evaluate_print, Eval.runOn_bind, hoperand.runOn_value]
    simp only [effect]
    cases operand.outcome machine.context.scope <;> rfl
  | @printAlias operator operand _ hoperand =>
    rw [evaluate_printAlias, Eval.runOn_bind, runOn_keyOf _ (hoperand.runOn_value machine)]
    simp only [effect]
    cases operand.nameIn machine.context.scope <;> rfl

/-- A statement fails and leaves the machine, or leaves the context of its effect and either
succeeds or is refused its line. -/
theorem IsStatement.evaluate_cases {statement : Node} (h : statement.IsStatement)
    (machine : Machine σ) :
    (∃ fault, statement.effect machine.context = .error fault ∧
      statement.evaluate.runOn machine = (.error fault, machine)) ∨
    ∃ effect after, statement.effect machine.context = .ok effect ∧
      after.context = effect.context ∧
      (statement.evaluate.runOn machine = (.ok effect.value?, after) ∨
        ∃ reason, statement.evaluate.runOn machine = (.error (.sink reason), after)) := by
  rw [h.runOn_evaluate]
  cases heffect : statement.effect machine.context with
  | error fault => exact .inl ⟨fault, rfl, rfl⟩
  | ok effect =>
    obtain ⟨after, hcontext, hperform⟩ :=
      effect.perform_cases { machine with context := effect.context }
    exact .inr ⟨effect, after, rfl, hcontext, hperform⟩

end Node

end EmojiScript
