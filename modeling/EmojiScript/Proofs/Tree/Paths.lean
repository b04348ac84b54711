import EmojiScript.Proofs.Parser.Rendering

namespace EmojiScript

/-!
# Ways down a tree

A walk over a tree goes as deep as its longest way down from the root to a leaf.  In a tree that was
read from tokens, the ways are short for two reasons.  Every node on a way through a formula, but
for the leaf at its end, leaves at least one other leaf aside, so that a way has no more nodes than
its formula has leaves.  And an operation that is a right operand was read from a pair of
parentheses, of which only so many may be open at a time.  The value of an assignment is a right
child as well, and takes no parentheses.

* `Node.Path` — the ways down a tree.
* `Node.assignedOperations` — the steps to a right child that no parentheses stand for.
* `Node.IsFormula.path_bounds`, `Node.IsStatement.path_bounds` — how long they may be.
-/

namespace Node

variable {nodes rights : Nat}

/-- Some way from a node down to a leaf has so many nodes, both ends included, and takes so many
steps to a right child that is an operation.  Assignments and alias definitions have a left and a
right child as operations do. -/
inductive Path : Node → Nat → Nat → Prop where
  | leaf {form : Leaf} {token : Token} : Path (leaf form token) 1 0
  | left {op : Arithmetic} {operator : Token} {left right : Node} {nodes rights : Nat} :
      Path left nodes rights → Path (formula op operator left right) (nodes + 1) rights
  | right {op : Arithmetic} {operator : Token} {left right : Node} {nodes rights : Nat} :
      Path right nodes rights →
      Path (formula op operator left right) (nodes + 1) (rights + right.parens)
  | target {operator : Token} {target value : Node} {nodes rights : Nat} :
      Path target nodes rights → Path (assign operator target value) (nodes + 1) rights
  | value {operator : Token} {target value : Node} {nodes rights : Nat} :
      Path value nodes rights →
      Path (assign operator target value) (nodes + 1) (rights + value.parens)
  | key {operator : Token} {key shown : Node} {nodes rights : Nat} :
      Path key nodes rights → Path (defineAlias operator key shown) (nodes + 1) rights
  | shown {operator : Token} {key shown : Node} {nodes rights : Nat} :
      Path shown nodes rights →
      Path (defineAlias operator key shown) (nodes + 1) (rights + shown.parens)
  | print {operator : Token} {operand : Node} {nodes rights : Nat} :
      Path operand nodes rights → Path (print operator operand) (nodes + 1) rights
  | printAlias {operator : Token} {operand : Node} {nodes rights : Nat} :
      Path operand nodes rights → Path (printAlias operator operand) (nodes + 1) rights
  | statement {statements : List Node} {statement : Node} {nodes rights : Nat} :
      statement ∈ statements → Path statement nodes rights →
      Path (program statements) (nodes + 1) rights
  /-- A program without statements is a leaf. -/
  | empty : Path (program []) 1 0

/-- The operations that are assigned as they stand: one in an assignment whose value is an
operation, and none in any other node. -/
def assignedOperations : Node → Nat
  | assign _ _ value => value.parens
  | _ => 0

theorem leafCount_pos (node : Node) : 0 < node.leafCount := by
  induction node with
  | formula op operator left right ihleft _ =>
    simp only [leafCount]
    omega
  | _ => simp [leafCount]

/-- A way down a formula has no more nodes than the formula has leaves, and the steps that it takes
to right operands are those to its groups. -/
theorem IsFormula.path_bounds {node : Node} (h : node.IsFormula) (hpath : node.Path nodes rights) :
    nodes ≤ node.leafCount ∧ node.Enters rights := by
  induction h generalizing nodes rights with
  | leaf =>
    cases hpath
    exact ⟨Nat.le_refl 1, .stop _⟩
  | @formula op operator left right _ _ _ ihleft ihright =>
    simp only [leafCount]
    cases hpath with
    | left hleft =>
      obtain ⟨hnodes, henters⟩ := ihleft hleft
      have hother := right.leafCount_pos
      exact ⟨by omega, henters.left⟩
    | right hright =>
      obtain ⟨hnodes, henters⟩ := ihright hright
      have hother := left.leafCount_pos
      exact ⟨by omega, henters.right⟩

/-- A formula that keeps to the limits has only short ways down. -/
theorem KeepsLimits.path_bounds {formula : Node} (h : formula.KeepsLimits)
    (hformula : formula.IsFormula) (hpath : formula.Path nodes rights) :
    nodes ≤ maxTerms ∧ rights ≤ maxNesting := by
  obtain ⟨hnodes, henters⟩ := hformula.path_bounds hpath
  have hterms := h.terms
  exact ⟨by omega, h.nesting rights henters⟩

/-- **Ways down a statement.** Beside those of its formula, a way has the node of the statement, and
the step from an assignment to its value. -/
theorem IsStatement.path_bounds {statement : Node} (h : statement.IsStatement)
    (hlimits : ∀ formula, statement.formula? = some formula → formula.KeepsLimits)
    (hpath : statement.Path nodes rights) :
    nodes ≤ maxTerms + 1 ∧ rights ≤ maxNesting + statement.assignedOperations := by
  -- a leaf right below the statement makes for a way of two nodes
  have hleaf : ∀ {form token nodes rights}, (leaf form token).Path nodes rights →
      nodes + 1 ≤ maxTerms + 1 ∧ rights = 0 := by
    rintro form token _ _ ⟨⟩
    decide
  have hbelow : ∀ {formula nodes rights}, statement.formula? = some formula →
      formula.Path nodes rights → nodes + 1 ≤ maxTerms + 1 ∧ rights ≤ maxNesting := by
    intro formula nodes rights hformula hway
    obtain ⟨hnodes, hrights⟩ :=
      (hlimits formula hformula).path_bounds (h.isFormula hformula) hway
    exact ⟨by omega, hrights⟩
  cases h with
  | assign =>
    cases hpath with
    | target hway =>
      obtain ⟨hnodes, rfl⟩ := hleaf hway
      exact ⟨hnodes, Nat.zero_le _⟩
    | value hway =>
      obtain ⟨hnodes, hrights⟩ := hbelow rfl hway
      exact ⟨hnodes, Nat.add_le_add_right hrights _⟩
  | defineAlias =>
    cases hpath with
    | key hway =>
      obtain ⟨hnodes, rfl⟩ := hleaf hway
      exact ⟨hnodes, Nat.zero_le _⟩
    | shown hway =>
      obtain ⟨hnodes, rfl⟩ := hleaf hway
      exact ⟨hnodes, Nat.zero_le _⟩
  | print =>
    cases hpath with
    | print hway => exact hbelow rfl hway
  | printAlias =>
    cases hpath with
    | printAlias hway => exact hbelow rfl hway

end Node

end EmojiScript
