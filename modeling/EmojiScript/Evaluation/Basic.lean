import EmojiScript.Evaluation.Arithmetic
import EmojiScript.Evaluation.Machine

namespace EmojiScript

/-!
# Evaluating trees

Statements are evaluated in order and the first fault stops the run.  A chain of operations can be
thousands of operators long and leans to the left, so it is not evaluated by one recursion per
operator: on the way down to the leftmost operand the operations are laid aside, and resumed in
turn once that operand has its value.  Operands are thus evaluated from left to right, each
operation behind its right operand.

- `Node.evaluateWith`: the value of a node, with the operations that wait for it.
- `Node.evaluate`: the value of a node, if it produces one.
- `Node.run`: a whole program, with one flush at its end.
-/

variable {σ : Type}

/-! ### Leaves -/

/-- A text without its quotes, where it has one at both ends. -/
def unquote (text : String) : String :=
  match text.toList with
  | '"' :: inner => if inner.getLast? = some '"' then String.ofList inner.dropLast else text
  | _ => text

theorem unquote_quoted (inner : List Char) :
    unquote (String.ofList ('"' :: (inner ++ ['"']))) = String.ofList inner := by
  simp [unquote]

/-- The value of a leaf. -/
def Leaf.evaluate (form : Leaf) (token : Token) : Eval σ Value :=
  match form with
  | number =>
    match Numeral.read? token.text with
    | some n => pure (.int n)
    | none => throw (.invalidNumber token.text)
  | text => pure (.text (unquote token.text))
  | emoji => pure (.text token.text)
  | word => Eval.lookup token.text

/-! ### Operations laid aside -/

/-- An operation whose left operand has no value yet. -/
structure Suspended (σ : Type) where
  op : Arithmetic
  operator : Token
  /-- The evaluation of the right operand. -/
  right : Eval σ Value

/-- Resumes operations that were laid aside, the innermost first, from the value of the leftmost
operand. -/
def Suspended.resume : List (Suspended σ) → Value → Eval σ Value
  | [], value => pure value
  | suspended :: rest, left => do
    let right ← suspended.right
    let value ← Eval.ofExcept (suspended.op.apply suspended.operator left right)
    resume rest value

namespace Node

/-- The value of a node that has to produce one. -/
def demand (node : Node) (evaluation : Eval σ (Option Value)) : Eval σ Value := do
  match ← evaluation with
  | some value => pure value
  | none => throw (.runtime (.valueless (node.line?.getD 0)))

/-- Ends the evaluation of a node with the operations that wait for its value. -/
def settle (node : Node) (pending : List (Suspended σ)) (evaluation : Eval σ (Option Value)) :
    Eval σ (Option Value) :=
  match pending with
  | [] => evaluation
  | pending => do
    let value ← node.demand evaluation
    some <$> Suspended.resume pending value

/-! ### Statements -/

/-- Stores a value under the name that `target` is. -/
def assignTo (target : Node) (value : Eval σ Value) : Eval σ Value :=
  match target with
  | leaf .word name => do
    let value ← value
    Eval.define name.text value
    pure value
  | target => throw (.runtime (.notAssignable (target.line?.getD 0)))

/-- The key that a node stands for: a name is its own key, any other node has the text of its
value. -/
def keyOf (node : Node) (value : Eval σ Value) : Eval σ String :=
  match node with
  | leaf .word name => pure name.text
  | _ => Value.toText <$> value

/-- The text that a node gives to an alias: an emoji or a name stands for itself, any other node
has the text of its value. -/
def aliasText (node : Node) (value : Eval σ Value) : Eval σ String :=
  match node with
  | leaf .emoji token | leaf .word token => pure token.text
  | _ => Value.toText <$> value

variable [Sink σ]

mutual

/-- Evaluates a node, and then the operations that wait for its value. -/
def evaluateWith : Node → List (Suspended σ) → Eval σ (Option Value)
  | leaf form token, pending =>
    settle (leaf form token) pending (some <$> form.evaluate token)
  | formula op operator left right, pending =>
    left.evaluateWith (⟨op, operator, right.demand (right.evaluateWith [])⟩ :: pending)
  | assign operator target value, pending =>
    settle (assign operator target value) pending
      (some <$> target.assignTo (value.demand (value.evaluateWith [])))
  | defineAlias operator key text, pending =>
    settle (defineAlias operator key text) pending do
      let key ← key.keyOf (key.demand (key.evaluateWith []))
      let text ← text.aliasText (text.demand (text.evaluateWith []))
      Eval.defineAlias key text
      return none
  | print operator operand, pending =>
    settle (print operator operand) pending do
      let value ← operand.demand (operand.evaluateWith [])
      Eval.writeLine value.toText
      return none
  | printAlias operator operand, pending =>
    settle (printAlias operator operand) pending do
      let key ← operand.keyOf (operand.demand (operand.evaluateWith []))
      Eval.writeLine (← Eval.shown key)
      return none
  | program statements, pending =>
    settle (program statements) pending do
      evaluateAll statements
      return none

/-- Evaluates statements in their order. -/
def evaluateAll : List Node → Eval σ Unit
  | [] => pure ()
  | statement :: rest => do
    let _ ← statement.evaluateWith []
    evaluateAll rest

end

/-- The value of a node, if it produces one. -/
def evaluate (node : Node) : Eval σ (Option Value) := node.evaluateWith []

/-- Evaluates a program, or any node, and flushes the sink where that succeeds. -/
def run (node : Node) : Eval σ Unit := do
  let _ ← node.evaluate
  Eval.flush

end Node

end EmojiScript
