import EmojiScript.Proofs.Evaluation.Effects
import EmojiScript.Proofs.Evaluation.Equations
import EmojiScript.Proofs.Parser.Shape

namespace EmojiScript

/-!
# Formulas as functions of the scope

A formula that was read from tokens does nothing but look variables up, so its evaluation is a
function of the scope: a value or a fault, and the machine as it was.

* `Node.outcome` — the value or the fault of a formula in a scope.
* `Node.IsFormula.runOn_evaluate` — its evaluation on a machine.
-/

variable {σ : Type}

/-- The value or the fault of a leaf in a scope. -/
def Leaf.outcome (scope : Scope) (form : Leaf) (token : Token) : Except Fault Value :=
  match form with
  | number =>
    match Numeral.read? token.text with
    | some n => .ok (.int n)
    | none => .error (.invalidNumber token.text)
  | text => .ok (.text (unquote token.text))
  | emoji => .ok (.text token.text)
  | word =>
    match scope.get? token.text with
    | some value => .ok value
    | none => .error (.undefinedVariable token.text)

theorem Leaf.runOn_evaluate (form : Leaf) (token : Token) (machine : Machine σ) :
    (form.evaluate token).runOn machine = (form.outcome machine.context.scope token, machine) := by
  cases form with
  | number =>
    simp only [Leaf.evaluate, Leaf.outcome]
    cases Numeral.read? token.text <;> rfl
  | text => rfl
  | emoji => rfl
  | word =>
    simp only [Leaf.evaluate, Leaf.outcome, Eval.runOn_lookup]
    cases machine.context.scope.get? token.text <;> rfl

namespace Node

/-- The value or the fault of a formula in a scope; a node that is no formula has none. -/
def outcome (scope : Scope) : Node → Except Fault Value
  | leaf form token => form.outcome scope token
  | formula op operator left right => do
    let a ← left.outcome scope
    let b ← right.outcome scope
    op.apply operator a b
  | node => .error (.runtime (.valueless (node.line?.getD 0)))

variable [Sink σ]

theorem runOn_value {node : Node} {machine after : Machine σ} {result : Except Fault Value}
    (h : node.evaluate.runOn machine = (result.map some, after)) :
    node.value.runOn machine = (result, after) := by
  rw [value, demand, Eval.runOn_bind, h]
  cases result <;> rfl

/-- **Formulas are functions of the scope.** -/
theorem IsFormula.runOn_evaluate {node : Node} (h : node.IsFormula) (machine : Machine σ) :
    node.evaluate.runOn machine = ((node.outcome machine.context.scope).map some, machine) := by
  induction h with
  | leaf => rw [evaluate_leaf, Eval.runOn_map, Leaf.runOn_evaluate, outcome]
  | @formula op operator left right _ _ _ ihleft ihright =>
    rw [evaluate_formula, Eval.runOn_map, Eval.runOn_bind, runOn_value ihleft, outcome]
    -- each operand either fails and ends the formula or has a value and leaves the machine
    cases left.outcome machine.context.scope with
    | error => rfl
    | ok a =>
      simp only [Eval.runOn_bind, runOn_value ihright]
      cases right.outcome machine.context.scope <;> rfl

theorem IsFormula.runOn_value {node : Node} (h : node.IsFormula) (machine : Machine σ) :
    node.value.runOn machine = (node.outcome machine.context.scope, machine) :=
  Node.runOn_value (h.runOn_evaluate machine)

/-- A value that an evaluation finds is the outcome of its formula. -/
theorem IsFormula.outcome_eq_of_runOn {node : Node} {machine after : Machine σ} {value : Value}
    (h : node.IsFormula) (hrun : node.evaluate.runOn machine = (.ok (some value), after)) :
    node.outcome machine.context.scope = .ok value := by
  rw [h.runOn_evaluate] at hrun
  obtain ⟨hresult, _⟩ := Prod.mk.inj hrun
  cases houtcome : node.outcome machine.context.scope with
  | error =>
    rw [houtcome] at hresult
    cases hresult
  | ok =>
    rw [houtcome] at hresult
    cases hresult
    rfl

end Node

end EmojiScript
