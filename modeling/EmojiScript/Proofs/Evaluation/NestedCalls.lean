import EmojiScript.Proofs.Evaluation.Recursion
import EmojiScript.Proofs.Tree.Paths

namespace EmojiScript

/-!
# Evaluation with a limit on nested calls

An evaluator that calls itself for the parts of a node needs as many calls at a time as the tree is
deep.  Chains of operations would make that thousands, so one call follows a chain down its left
operands to the leftmost, lays the operations aside, and calls for the operands alone.  What is left
to count are programs, statements, formulas and the groups in them.

* `Node.evaluateOnce` — one call, with an evaluator for the nodes that it calls for.
* `Node.evaluateWithin` — so many calls at a time, and anything at all in place of a further one.
* `Node.RunsIn` — how many calls a node needs at a time.
* `Node.evaluateWithin_eq_evaluate` — with so many calls, the limit makes no difference.
* `parse_paths_and_calls` — trees that were read from tokens.
-/

namespace Node

variable {σ : Type} [Sink σ]

/-! ### The limited evaluator -/

/-- Follows a chain of operations to its leftmost operand and lays them aside; then evaluates the
operands and resumes the operations. -/
def followChain (call : Node → Eval σ (Option Value)) :
    Node → List (Suspended σ) → Eval σ Value
  | formula op operator left right, pending =>
    left.followChain call (⟨op, operator, right.demand (call right)⟩ :: pending)
  | node, pending => do
    let value ← node.demand (call node)
    Suspended.resume pending value

/-- Calls for statements in their order. -/
def callAll (call : Node → Eval σ (Option Value)) : List Node → Eval σ Unit
  | [] => pure ()
  | statement :: rest => do
    let _ ← call statement
    callAll call rest

/-- One call of the evaluator: the value of a node, where `call` evaluates other nodes.  A chain of
operations is one call, however long it is. -/
def evaluateOnce (call : Node → Eval σ (Option Value)) : Node → Eval σ (Option Value)
  | leaf form token => some <$> form.evaluate token
  | formula op operator left right =>
    some <$> (formula op operator left right).followChain call []
  | assign _ target value => some <$> target.assignTo (value.demand (call value))
  | defineAlias _ key text => do
    let key ← key.keyOf (key.demand (call key))
    let text ← text.aliasText (text.demand (call text))
    Eval.defineAlias key text
    return none
  | print _ operand => do
    let value ← operand.demand (call operand)
    Eval.writeLine value.toText
    return none
  | printAlias _ operand => do
    let key ← operand.keyOf (operand.demand (call operand))
    Eval.writeLine (← Eval.shown key)
    return none
  | program statements => do
    callAll call statements
    return none

/-- The value of a node with at most so many calls at a time, each within the one before.  Where a
further one is needed, `exhausted` takes its place. -/
def evaluateWithin (exhausted : Eval σ (Option Value)) : Nat → Node → Eval σ (Option Value)
  | 0, _ => exhausted
  | calls + 1, node => node.evaluateOnce (evaluateWithin exhausted calls)

/-! ### How many calls a node needs -/

/-- The operands of a chain of operations, the leftmost first; a node that is no operation is its
own only operand. -/
def operands : Node → List Node
  | formula _ _ left right => left.operands ++ [right]
  | node => [node]

/-- The nodes that one call calls for. -/
def called : Node → List Node
  | leaf .. => []
  | formula op operator left right => (formula op operator left right).operands
  | assign _ _ value => [value]
  | defineAlias _ key text => [key, text]
  | print _ operand | printAlias _ operand => [operand]
  | program statements => statements

/-- A node can be evaluated with so many calls at a time. -/
def RunsIn : Nat → Node → Prop
  | 0, _ => False
  | calls + 1, node => ∀ part ∈ node.called, RunsIn calls part

/-! ### The limit makes no difference -/

/-- Statements are evaluated if each of them is. -/
theorem callAll_eq_evaluateAll {call : Node → Eval σ (Option Value)} {statements : List Node}
    (h : ∀ statement ∈ statements, call statement = statement.evaluate) :
    callAll call statements = evaluateAll statements := by
  induction statements with
  | nil => rfl
  | cons statement rest ih =>
    obtain ⟨hfirst, hrest⟩ := List.forall_mem_cons.mp h
    rw [callAll, evaluateAll_cons, hfirst, ih hrest]

/-- A chain is evaluated if each of its operands is. -/
theorem followChain_eq {call : Node → Eval σ (Option Value)} {node : Node}
    (h : ∀ operand ∈ node.operands, call operand = operand.evaluate)
    (pending : List (Suspended σ)) :
    node.followChain call pending = node.value >>= Suspended.resume pending := by
  induction node generalizing pending with
  | formula op operator left right ihleft _ =>
    simp only [operands, List.forall_mem_append, List.forall_mem_singleton] at h
    obtain ⟨hleft, hright⟩ := h
    have hvalue : (formula op operator left right).value (σ := σ) = (do
        let a ← left.value
        let b ← right.value
        Eval.ofExcept (op.apply operator a b)) := by
      rw [value, evaluate_formula, demand_some]
    rw [followChain, ihleft hleft, hvalue, bind_assoc]
    simp only [Suspended.resume, hright, bind_assoc, value]
  | _ =>
    simp only [operands, List.forall_mem_singleton] at h
    simp only [followChain, h, value]

/-- **One call.** It evaluates its node if every node that it calls for is evaluated. -/
theorem evaluateOnce_eq_evaluate {call : Node → Eval σ (Option Value)} {node : Node}
    (h : ∀ part ∈ node.called, call part = part.evaluate) :
    node.evaluateOnce call = node.evaluate := by
  cases node with
  | leaf => rfl
  | formula op operator left right =>
    rw [evaluateOnce, followChain_eq h, value, evaluate_formula, demand_some]
    simp [Suspended.resume]
  | assign operator target value =>
    rw [evaluateOnce, h value (by simp [called])]
    rfl
  | defineAlias operator key text =>
    rw [evaluateOnce, h key (by simp [called]), h text (by simp [called])]
    rfl
  | print operator operand =>
    rw [evaluateOnce, h operand (by simp [called])]
    rfl
  | printAlias operator operand =>
    rw [evaluateOnce, h operand (by simp [called])]
    rfl
  | program statements =>
    have hall : callAll call statements = evaluateAll statements := callAll_eq_evaluateAll h
    rw [evaluateOnce, hall, evaluate_program]

/-- **Enough calls.** Where a node needs no more calls than there may be, nothing takes the place
of a further one. -/
theorem evaluateWithin_eq_evaluate (exhausted : Eval σ (Option Value)) {calls : Nat} {node : Node}
    (h : RunsIn calls node) : evaluateWithin exhausted calls node = node.evaluate := by
  induction calls generalizing node with
  | zero => exact h.elim
  | succ calls ih =>
    rw [evaluateWithin]
    apply evaluateOnce_eq_evaluate
    intro part hpart
    exact ih (h part hpart)

/-! ### Trees that were read from tokens -/

/-- The operands of a formula are formulas, and those that are operations are groups of it. -/
theorem IsFormula.of_mem_operands {node operand : Node} (h : node.IsFormula)
    (hoperand : operand ∈ node.operands) :
    operand.IsFormula ∧ operand.groupDepth + operand.parens ≤ node.groupDepth := by
  induction h with
  | @leaf form token hform hkind =>
    obtain rfl : operand = Node.leaf form token := by simpa [operands] using hoperand
    exact ⟨.leaf hform hkind, Nat.le_refl 0⟩
  | @formula op operator left right _ _ hright ihleft _ =>
    simp only [groupDepth]
    rcases List.mem_append.mp hoperand with hleft | hlast
    · obtain ⟨hread, hdepth⟩ := ihleft hleft
      exact ⟨hread, by omega⟩
    · obtain rfl : operand = right := by simpa using hlast
      exact ⟨hright, by omega⟩

/-- A formula takes a call for itself, one for every group on a way down, and one for a leaf. -/
theorem IsFormula.runsIn {node : Node} (h : node.IsFormula) {calls : Nat}
    (hcalls : node.groupDepth + node.parens + 1 ≤ calls) : RunsIn calls node := by
  induction calls generalizing node with
  | zero => omega
  | succ calls ih =>
    intro part hpart
    cases h with
    | leaf => simp [called] at hpart
    | formula hoperator hleft hright =>
      obtain ⟨hread, hdepth⟩ := (IsFormula.formula hoperator hleft hright).of_mem_operands hpart
      simp only [parens] at hcalls
      exact ih hread (by omega)

/-- A leaf calls for nothing. -/
theorem runsIn_leaf (form : Leaf) (token : Token) (calls : Nat) :
    RunsIn (calls + 1) (leaf form token) := by
  intro part hpart
  cases hpart

/-- A statement takes a call more than its formula. -/
theorem IsStatement.runsIn {statement : Node} (h : statement.IsStatement)
    (hlimits : ∀ formula, statement.formula? = some formula → formula.KeepsLimits) :
    RunsIn (maxNesting + 3) statement := by
  have hbelow : ∀ formula, statement.formula? = some formula → RunsIn (maxNesting + 2) formula := by
    intro formula hformula
    have hdepth := groupDepth_le_iff.mpr (hlimits formula hformula).nesting
    have hparens : formula.parens ≤ 1 := by cases formula <;> simp [parens]
    exact (h.isFormula hformula).runsIn (by omega)
  intro part hpart
  cases h with
  | assign =>
    obtain rfl := List.mem_singleton.mp hpart
    exact hbelow _ rfl
  | defineAlias =>
    simp only [called, List.mem_cons, List.not_mem_nil, or_false] at hpart
    rcases hpart with rfl | rfl
    · exact runsIn_leaf _ _ _
    · exact runsIn_leaf _ _ _
  | print =>
    obtain rfl := List.mem_singleton.mp hpart
    exact hbelow _ rfl
  | printAlias =>
    obtain rfl := List.mem_singleton.mp hpart
    exact hbelow _ rfl

end Node

/-- **How deep walks go.** Take a program that was read from tokens.  No way from a statement down
to a leaf has more than 4097 nodes, or takes more than 64 steps to a right child that is an
operation, the step from an assignment to its value apart.  So 68 calls at a time are enough to
evaluate the program on any machine: one each for the program, a statement, its formula and a leaf,
and 64 for the groups of the formula. -/
theorem parse_paths_and_calls {tokens : List Token} {statements : List Node}
    (h : parse tokens = .ok (.program statements)) :
    (∀ statement ∈ statements, ∀ nodes rights, statement.Path nodes rights →
      nodes ≤ 4097 ∧ rights ≤ 64 + statement.assignedOperations) ∧
    ∀ (σ : Type) [Sink σ] (exhausted : Eval σ (Option Value)) (machine : Machine σ),
      (Node.evaluateWithin exhausted 68 (.program statements)).runOn machine =
        (Node.program statements).evaluate.runOn machine := by
  obtain ⟨_, ⟨⟩, hstatements⟩ := isProgram_of_parse h
  refine ⟨?_, ?_⟩
  · intro statement hstatement nodes rights hpath
    obtain ⟨hread, hlimits⟩ := hstatements statement hstatement
    exact hread.path_bounds hlimits hpath
  · intro σ _ exhausted machine
    have hruns : Node.RunsIn 68 (.program statements) := by
      intro statement hstatement
      obtain ⟨hread, hlimits⟩ := hstatements statement hstatement
      exact hread.runsIn hlimits
    rw [Node.evaluateWithin_eq_evaluate exhausted hruns]

/-- The tokens of `x = 1 + (2 + (3 + y))#;`. -/
def groupInGroup : List Token :=
  [⟨.word, "x", ⟨0, 1⟩⟩, ⟨.equals, "=", ⟨2, 1⟩⟩, ⟨.number, "1", ⟨4, 1⟩⟩, ⟨.plus, "+", ⟨6, 1⟩⟩,
   ⟨.openParen, "(", ⟨8, 1⟩⟩, ⟨.number, "2", ⟨9, 1⟩⟩, ⟨.plus, "+", ⟨11, 1⟩⟩,
   ⟨.openParen, "(", ⟨13, 1⟩⟩, ⟨.number, "3", ⟨14, 1⟩⟩, ⟨.plus, "+", ⟨16, 1⟩⟩,
   ⟨.word, "y", ⟨18, 1⟩⟩, ⟨.closeParen, ")", ⟨19, 1⟩⟩, ⟨.closeParen, ")", ⟨20, 1⟩⟩,
   ⟨.hash, "#", ⟨21, 1⟩⟩, ⟨.semicolon, ";", ⟨22, 1⟩⟩]

/-- The statement of `groupInGroup`. -/
def groupInGroupTree : Node :=
  .assign ⟨.equals, "=", ⟨2, 1⟩⟩ (.leaf .word ⟨.word, "x", ⟨0, 1⟩⟩)
    (.formula .add ⟨.plus, "+", ⟨6, 1⟩⟩ (.leaf .number ⟨.number, "1", ⟨4, 1⟩⟩)
      (.formula .add ⟨.plus, "+", ⟨11, 1⟩⟩ (.leaf .number ⟨.number, "2", ⟨9, 1⟩⟩)
        (.formula .add ⟨.plus, "+", ⟨16, 1⟩⟩ (.leaf .number ⟨.number, "3", ⟨14, 1⟩⟩)
          (.leaf .word ⟨.word, "y", ⟨18, 1⟩⟩))))

theorem groupInGroup_paths_and_calls :
    parse groupInGroup = .ok (.program [groupInGroupTree]) ∧
      groupInGroupTree.Path 5 3 ∧ 5 ≤ 4097 ∧ 3 ≤ 64 + groupInGroupTree.assignedOperations ∧
      (Node.evaluateWithin (throw (.runtime (.worded "exhausted"))) 68
          (.program [groupInGroupTree])).runOn ({ sink := {} } : Machine Buffer) =
        (.error (.undefinedVariable "y"), { sink := {} }) := by
  have hparse : parse groupInGroup = .ok (.program [groupInGroupTree]) := rfl
  obtain ⟨hpaths, hcalls⟩ := parse_paths_and_calls hparse
  -- the way to the last leaf goes to the value and through both groups
  have hpath : groupInGroupTree.Path 5 3 := .value (.right (.right (.right .leaf)))
  obtain ⟨hnodes, hrights⟩ := hpaths groupInGroupTree (by simp) 5 3 hpath
  refine ⟨hparse, hpath, hnodes, hrights, ?_⟩
  rw [hcalls]
  rfl

/-! ### The step to the value of an assignment -/

/-- The tokens of `1+(1+(1+ … (1+1)))`, with so many groups and from some place on one line on. -/
def nestedSum : Nat → Nat → List Token
  | 0, position =>
    [⟨.number, "1", ⟨position, 1⟩⟩, ⟨.plus, "+", ⟨position + 1, 1⟩⟩,
     ⟨.number, "1", ⟨position + 2, 1⟩⟩]
  | groups + 1, position =>
    ⟨.number, "1", ⟨position, 1⟩⟩ :: ⟨.plus, "+", ⟨position + 1, 1⟩⟩ ::
      ⟨.openParen, "(", ⟨position + 2, 1⟩⟩ :: nestedSum groups (position + 3) ++
      [⟨.closeParen, ")", ⟨position + 4 * groups + 6, 1⟩⟩]

/-- The formula of `nestedSum`. -/
def nestedSumTree : Nat → Nat → Node
  | 0, position =>
    .formula .add ⟨.plus, "+", ⟨position + 1, 1⟩⟩ (.leaf .number ⟨.number, "1", ⟨position, 1⟩⟩)
      (.leaf .number ⟨.number, "1", ⟨position + 2, 1⟩⟩)
  | groups + 1, position =>
    .formula .add ⟨.plus, "+", ⟨position + 1, 1⟩⟩ (.leaf .number ⟨.number, "1", ⟨position, 1⟩⟩)
      (nestedSumTree groups (position + 3))

/-- The way through all groups takes a step to a right operand for each of them. -/
theorem path_nestedSumTree (groups position : Nat) :
    (nestedSumTree groups position).Path (groups + 2) groups := by
  induction groups generalizing position with
  | zero => exact .right .leaf
  | succ groups ih =>
    have hparens : (nestedSumTree groups (position + 3)).parens = 1 := by cases groups <;> rfl
    have hway : (nestedSumTree (groups + 1) position).Path (groups + 2 + 1)
        (groups + (nestedSumTree groups (position + 3)).parens) := .right (ih (position + 3))
    rwa [hparens] at hway

/-- The tokens of `x=1+(1+ … )#;` with as many groups in one another as there may be. -/
def deepAssignment : List Token :=
  ⟨.word, "x", ⟨0, 1⟩⟩ :: ⟨.equals, "=", ⟨1, 1⟩⟩ :: nestedSum 64 2 ++
    [⟨.hash, "#", ⟨261, 1⟩⟩, ⟨.semicolon, ";", ⟨262, 1⟩⟩]

/-- The statement of `deepAssignment`. -/
def deepAssignmentTree : Node :=
  .assign ⟨.equals, "=", ⟨1, 1⟩⟩ (.leaf .word ⟨.word, "x", ⟨0, 1⟩⟩) (nestedSumTree 64 2)

/-- With the step to the value, a way down an assignment may take one step more than there may be
groups. -/
theorem deepAssignment_exceeds_nesting :
    parse deepAssignment = .ok (.program [deepAssignmentTree]) ∧
      deepAssignmentTree.Path 67 65 ∧ ¬ 65 ≤ maxNesting := by
  exact ⟨by rfl, .value (path_nestedSumTree 64 2), by decide⟩

end EmojiScript
