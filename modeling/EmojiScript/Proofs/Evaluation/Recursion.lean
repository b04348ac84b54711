import EmojiScript.Proofs.Evaluation.Equations

namespace EmojiScript

/-!
# Evaluation by plain recursion

`Node.recursive` evaluates a tree in the most obvious way: every node asks its parts for their
values, one after the other, and lays nothing aside.  It takes a nested call for every operator of
a chain, which is why trees are not evaluated so, but it says at a glance what happens in which
order.  Evaluation with operations laid aside does the same to every machine, whatever stands as an
operand and whichever part of it fails first.

* `Node.recursive` — evaluation by plain recursion.
* `Node.runOn_evaluate_eq_recursive` — on every machine, the two evaluations of a node agree in
  result, context and sink.
-/

namespace Node

variable {σ : Type} [Sink σ]

mutual

/-- Evaluates a node by evaluating its parts.  A formula takes the value of its left operand, then
that of its right one, and then operates on both. -/
def recursive : Node → Eval σ (Option Value)
  | leaf form token => some <$> form.evaluate token
  | formula op operator left right => do
    let a ← left.demand left.recursive
    let b ← right.demand right.recursive
    some <$> Eval.ofExcept (op.apply operator a b)
  | assign _ target right => some <$> target.assignTo (right.demand right.recursive)
  | defineAlias _ key shown => do
    let key ← key.keyOf (key.demand key.recursive)
    let text ← shown.aliasText (shown.demand shown.recursive)
    Eval.defineAlias key text
    return none
  | print _ operand => do
    let value ← operand.demand operand.recursive
    Eval.writeLine value.toText
    return none
  | printAlias _ operand => do
    let key ← operand.keyOf (operand.demand operand.recursive)
    Eval.writeLine (← Eval.shown key)
    return none
  | program statements => do
    recursiveAll statements
    return none

/-- Evaluates statements one after the other. -/
def recursiveAll : List Node → Eval σ Unit
  | [] => pure ()
  | statement :: rest => do
    let _ ← statement.recursive
    recursiveAll rest

end

/-- Statements agree if each of them does. -/
theorem evaluateAll_eq_recursiveAll {statements : List Node}
    (h : ∀ statement ∈ statements, statement.evaluate (σ := σ) = statement.recursive) :
    evaluateAll (σ := σ) statements = recursiveAll statements := by
  induction statements with
  | nil => rfl
  | cons statement rest ih =>
    obtain ⟨hfirst, hrest⟩ := List.forall_mem_cons.mp h
    rw [evaluateAll_cons, recursiveAll, hfirst, ih hrest]

/-- The two evaluations of a node are one. -/
theorem evaluate_eq_recursive (node : Node) : node.evaluate (σ := σ) = node.recursive := by
  induction node with
  | leaf form token => rfl
  | formula op operator left right ihleft ihright =>
    -- the operation was laid aside while the left operand was evaluated, and comes last
    rw [evaluate_formula, recursive, value, value, ihleft, ihright]
    simp only [map_bind]
  | assign operator target right _ ih =>
    have hassign : (assign operator target right).evaluate (σ := σ) =
        some <$> target.assignTo right.value := rfl
    rw [hassign, recursive, value, ih]
  | defineAlias operator key shown ihkey ihshown =>
    rw [evaluate_defineAlias, recursive, value, value, ihkey, ihshown]
  | print operator operand ih => rw [evaluate_print, recursive, value, ih]
  | printAlias operator operand ih => rw [evaluate_printAlias, recursive, value, ih]
  | program statements ih => rw [evaluate_program, recursive, evaluateAll_eq_recursiveAll ih]

/-- **Plain recursion.** On every machine, whatever its sink refuses, a node evaluates to the
result or the fault that plain recursion comes to, and leaves the same context and sink. -/
theorem runOn_evaluate_eq_recursive (node : Node) (machine : Machine σ) :
    node.evaluate.runOn machine = node.recursive.runOn machine := by
  rw [evaluate_eq_recursive]

-- `(x = 7) - x`, made by hand: the left operand has stored its value before the right one is asked
example : ((formula .sub ⟨.minus, "-", ⟨8, 1⟩⟩
    (assign ⟨.equals, "=", ⟨3, 1⟩⟩ (leaf .word ⟨.word, "x", ⟨1, 1⟩⟩)
      (leaf .number ⟨.number, "7", ⟨5, 1⟩⟩))
    (leaf .word ⟨.word, "x", ⟨10, 1⟩⟩)).recursive.runOn { sink := ({} : Buffer) }).1 =
      .ok (some (.int 0)) := by
  rfl

end Node

end EmojiScript
