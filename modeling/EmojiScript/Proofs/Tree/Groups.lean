import EmojiScript.Parser.Expectation
import EmojiScript.Tree.Basic

namespace EmojiScript.Node

/-!
# The groups of a formula

Chains of operations lean to the left, so a tree shows where its text needs parentheses: around
an operation that is the right operand of another one, and nowhere else.  The limits of a statement
can be told from its tree by counting these places, in all and along every way down.

* `parens` — the parentheses that a node needs as a right operand.
* `leafCount`, `groupCount` — the leaves of a formula and its groups.
* `Enters` — the groups on the way down to a node.
* `groupDepth_le_iff` — the most groups on any way down.
* `KeepsLimits` — the limits of a statement, told from the tree of its formula.
-/

/-- The pairs of parentheses that a node needs as a right operand: one around an operation. -/
def parens : Node → Nat
  | formula .. => 1
  | _ => 0

/-- The leaves of a formula. -/
def leafCount : Node → Nat
  | formula _ _ left right => left.leafCount + right.leafCount
  | _ => 1

/-- The operations of a formula that are right operands of others. -/
def groupCount : Node → Nat
  | formula _ _ left right => left.groupCount + (right.groupCount + right.parens)
  | _ => 0

/-- Some way down from a formula enters so many operations as right operands. -/
inductive Enters : Node → Nat → Prop where
  | stop (node : Node) : Enters node 0
  | left {op : Arithmetic} {operator : Token} {left right : Node} {entered : Nat} :
      Enters left entered → Enters (formula op operator left right) entered
  | right {op : Arithmetic} {operator : Token} {left right : Node} {entered : Nat} :
      Enters right entered → Enters (formula op operator left right) (entered + right.parens)

/-- The most operations that any way down enters as right operands. -/
def groupDepth : Node → Nat
  | formula _ _ left right => max left.groupDepth (right.groupDepth + right.parens)
  | _ => 0

theorem Enters.le_groupDepth {node : Node} {entered : Nat} (h : node.Enters entered) :
    entered ≤ node.groupDepth := by
  induction h with
  | stop => exact Nat.zero_le _
  | left _ ih =>
    simp only [groupDepth]
    omega
  | right _ ih =>
    simp only [groupDepth]
    omega

theorem enters_groupDepth (node : Node) : node.Enters node.groupDepth := by
  induction node with
  | formula op operator left right ihleft ihright =>
    -- the way that enters most goes on in one of the two operands
    rcases Nat.le_total left.groupDepth (right.groupDepth + right.parens) with hle | hle
    · simp only [groupDepth, Nat.max_eq_right hle]
      exact ihright.right
    · simp only [groupDepth, Nat.max_eq_left hle]
      exact ihleft.left
  | _ => exact .stop _

/-- The depth is a bound exactly where no way down enters more. -/
theorem groupDepth_le_iff {node : Node} {limit : Nat} :
    node.groupDepth ≤ limit ↔ ∀ entered, node.Enters entered → entered ≤ limit := by
  constructor
  · intro h entered henters
    exact Nat.le_trans henters.le_groupDepth h
  · intro h
    exact h _ node.enters_groupDepth

/-- The limits of a statement, told from the tree of its formula. -/
structure KeepsLimits (formula : Node) : Prop where
  terms : formula.leafCount + formula.groupCount ≤ maxTerms
  nesting : ∀ entered, formula.Enters entered → entered ≤ maxNesting

end EmojiScript.Node
