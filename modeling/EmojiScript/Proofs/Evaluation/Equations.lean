import EmojiScript.Evaluation.Basic

namespace EmojiScript

/-!
# Evaluation without operations laid aside

Operations that wait for a value do not take part in finding it: to evaluate a node with
operations laid aside is to evaluate it alone and then to resume them.  A formula is thus evaluated
as plain recursion would evaluate it, its left operand, then its right one, then the operation.

* `Node.value` — the value of a node that has to produce one.
* `Node.evaluateWith_eq_settle` — the operations laid aside come last.
* `Node.evaluate_formula` and its like — the evaluation of a node in terms of its parts.
-/

namespace Node

variable {σ : Type}

/-! ### Operations laid aside -/

theorem demand_some (node : Node) (evaluation : Eval σ Value) :
    node.demand (some <$> evaluation) = evaluation := by
  simp [demand]

theorem settle_cons (node : Node) (suspended : Suspended σ) (pending : List (Suspended σ))
    (evaluation : Eval σ (Option Value)) :
    node.settle (suspended :: pending) evaluation =
      some <$> (node.demand evaluation >>= Suspended.resume (suspended :: pending)) := by
  rw [map_bind]
  rfl

/-- Operations may be resumed in two parts. -/
theorem settle_settle (node whole : Node) (suspended : Suspended σ)
    (pending : List (Suspended σ)) (evaluation : Eval σ (Option Value)) :
    whole.settle pending (node.settle [suspended] evaluation) =
      node.settle (suspended :: pending) evaluation := by
  cases pending with
  | nil => rfl
  | cons next pending =>
    -- the first operation has its value, so there is nothing left to demand of the whole
    rw [settle_cons, settle_cons, settle_cons, demand_some, bind_assoc]
    simp [Suspended.resume]

variable [Sink σ]

/-- The value of a node that has to produce one. -/
def value (node : Node) : Eval σ Value := node.demand node.evaluate

/-- **Operations laid aside come last.** -/
theorem evaluateWith_eq_settle (node : Node) (pending : List (Suspended σ)) :
    node.evaluateWith pending = node.settle pending node.evaluate := by
  induction node generalizing pending with
  | formula op operator left right ihleft _ =>
    -- both sides evaluate the left operand with the operation in front of those that wait
    unfold evaluate
    simp only [evaluateWith]
    rw [ihleft, ihleft]
    rw [settle_settle]
  | leaf => simp only [evaluate, evaluateWith]; rfl
  | assign => simp only [evaluate, evaluateWith]; rfl
  | defineAlias => simp only [evaluate, evaluateWith]; rfl
  | print => simp only [evaluate, evaluateWith]; rfl
  | printAlias => simp only [evaluate, evaluateWith]; rfl
  | program => simp only [evaluate, evaluateWith]; rfl

/-! ### Nodes in terms of their parts -/

theorem evaluate_leaf (form : Leaf) (token : Token) :
    (leaf form token).evaluate (σ := σ) = some <$> form.evaluate token := rfl

theorem value_leaf (form : Leaf) (token : Token) :
    (leaf form token).value (σ := σ) = form.evaluate token := by
  rw [value, evaluate_leaf, demand_some]

/-- A formula is evaluated from left to right, and its operation last. -/
theorem evaluate_formula (op : Arithmetic) (operator : Token) (left right : Node) :
    (formula op operator left right).evaluate (σ := σ) = some <$> (do
      let a ← left.value
      let b ← right.value
      Eval.ofExcept (op.apply operator a b)) := by
  -- by definition the operation is laid aside while the left operand is evaluated
  have hleft : (formula op operator left right).evaluate (σ := σ) =
      left.settle [⟨op, operator, right.value⟩] left.evaluate := by
    rw [← evaluateWith_eq_settle]
    rfl
  rw [hleft]
  simp [settle, Suspended.resume, value]

theorem evaluate_assign (operator name : Token) (right : Node) :
    (assign operator (leaf .word name) right).evaluate (σ := σ) = some <$> (do
      let value ← right.value
      Eval.define name.text value
      pure value) := rfl

theorem evaluate_defineAlias (operator : Token) (key text : Node) :
    (defineAlias operator key text).evaluate (σ := σ) = (do
      let key ← key.keyOf key.value
      let text ← text.aliasText text.value
      Eval.defineAlias key text
      return none) := rfl

theorem evaluate_print (operator : Token) (operand : Node) :
    (print operator operand).evaluate (σ := σ) = (do
      let value ← operand.value
      Eval.writeLine value.toText
      return none) := rfl

theorem evaluate_printAlias (operator : Token) (operand : Node) :
    (printAlias operator operand).evaluate (σ := σ) = (do
      let key ← operand.keyOf operand.value
      Eval.writeLine (← Eval.shown key)
      return none) := rfl

theorem evaluate_program (statements : List Node) :
    (program statements).evaluate (σ := σ) = (do
      evaluateAll statements
      return none) := rfl

theorem evaluateAll_cons (statement : Node) (rest : List Node) :
    evaluateAll (σ := σ) (statement :: rest) = (do
      let _ ← statement.evaluate
      evaluateAll rest) := rfl

theorem evaluateAll_append (statements others : List Node) :
    evaluateAll (σ := σ) (statements ++ others) = (do
      evaluateAll statements
      evaluateAll others) := by
  induction statements with
  | nil => exact (pure_bind () fun _ => evaluateAll others).symm
  | cons statement rest ih =>
    rw [List.cons_append, evaluateAll_cons, evaluateAll_cons, ih, bind_assoc]

end Node

end EmojiScript
