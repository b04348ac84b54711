import EmojiScript.Token.Basic

namespace EmojiScript

/-!
# Trees

A program is a tree whose nodes keep the tokens they were read from.  Trees may also be made by
hand, with any node anywhere: a statement may stand where a value is needed, and anything may be
assigned to.

- `Node`: the trees.
- `Node.induct`: induction over trees, in which a program may assume the statement of every one
  of its statements; plain `induction` uses it.
- `Node.line?`: the line on which a node begins.
- `Node.same_iff`: equality of trees is decidable.
-/

/-- What a leaf stands for. -/
inductive Leaf where
  /-- An integer, as its numeral. -/
  | number
  /-- A text, in its quotes. -/
  | text
  /-- An emoji, which stands for itself. -/
  | emoji
  /-- The name of a variable, or the key of an alias. -/
  | word
deriving DecidableEq, Repr, Inhabited

/-- The kind of token that a leaf is read from. -/
def Leaf.kind : Leaf → Kind
  | number => .number
  | text => .text
  | emoji => .emoji
  | word => .word

/-- Leaves that are read from tokens of one kind stand for one thing. -/
theorem Leaf.kind_inj {form form' : Leaf} (h : form.kind = form'.kind) : form = form' := by
  cases form <;> cases form' <;> first | rfl | cases h

/-- The two operations of a formula. -/
inductive Arithmetic where
  | add
  | sub
deriving DecidableEq, Repr, Inhabited

/-- The kind of token that an operation is read from. -/
def Arithmetic.kind : Arithmetic → Kind
  | add => .plus
  | sub => .minus

/-- A program, a statement or a part of one. -/
inductive Node where
  | leaf (form : Leaf) (token : Token)
  /-- A sum `left + right` or a difference `left - right`. -/
  | formula (op : Arithmetic) (operator : Token) (left right : Node)
  /-- An assignment `target = value`. -/
  | assign (operator : Token) (target value : Node)
  /-- An alias definition `ejkey key shown`: from then on `shown` is shown for `key`. -/
  | defineAlias (operator : Token) (key shown : Node)
  /-- A statement `print operand`. -/
  | print (operator : Token) (operand : Node)
  /-- A statement `ejprint operand`, which prints what is shown for its operand. -/
  | printAlias (operator : Token) (operand : Node)
  /-- Statements in the order in which they run. -/
  | program (statements : List Node)
deriving Repr, Inhabited

namespace Node

/-- Induction over trees.  In the case of a program, every one of its statements may be assumed. -/
@[elab_as_elim, induction_eliminator]
theorem induct {motive : Node → Prop}
    (leaf : ∀ form token, motive (leaf form token))
    (formula : ∀ op operator left right, motive left → motive right →
      motive (formula op operator left right))
    (assign : ∀ operator target value, motive target → motive value →
      motive (assign operator target value))
    (defineAlias : ∀ operator key shown, motive key → motive shown →
      motive (defineAlias operator key shown))
    (print : ∀ operator operand, motive operand → motive (print operator operand))
    (printAlias : ∀ operator operand, motive operand → motive (printAlias operator operand))
    (program : ∀ statements, (∀ statement ∈ statements, motive statement) →
      motive (program statements)) (node : Node) : motive node :=
  @Node.rec motive (fun statements => ∀ statement ∈ statements, motive statement)
    leaf formula assign defineAlias print printAlias program
    (by simp)
    (fun _ _ head tail => by simpa using ⟨head, tail⟩) node

/-! ### Lines -/

mutual

/-- The line on which a node begins: that of its leftmost token.  An empty program has none. -/
def line? : Node → Option Nat
  | leaf _ token => some token.line
  | formula _ _ left _ => left.line?
  | assign _ target _ => target.line?
  | defineAlias _ key _ => key.line?
  | print operator _ => some operator.line
  | printAlias operator _ => some operator.line
  | program statements => firstLine? statements

/-- The line on which the first of some statements begins. -/
def firstLine? : List Node → Option Nat
  | [] => none
  | statement :: _ => statement.line?

end

/-! ### Equality -/

mutual

/-- Compares two trees, the places of their tokens included. -/
def same : Node → Node → Bool
  | leaf form token, leaf form' token' => form = form' && token = token'
  | formula op operator left right, formula op' operator' left' right' =>
    op = op' && operator = operator' && left.same left' && right.same right'
  | assign operator target value, assign operator' target' value' =>
    operator = operator' && target.same target' && value.same value'
  | defineAlias operator key shown, defineAlias operator' key' shown' =>
    operator = operator' && key.same key' && shown.same shown'
  | print operator operand, print operator' operand' =>
    operator = operator' && operand.same operand'
  | printAlias operator operand, printAlias operator' operand' =>
    operator = operator' && operand.same operand'
  | program statements, program statements' => sameAll statements statements'
  | _, _ => false

/-- Compares two lists of trees. -/
def sameAll : List Node → List Node → Bool
  | [], [] => true
  | statement :: rest, statement' :: rest' => statement.same statement' && sameAll rest rest'
  | _, _ => false

end

theorem sameAll_iff {statements : List Node}
    (h : ∀ statement ∈ statements, ∀ other, statement.same other = true ↔ statement = other)
    (others : List Node) : sameAll statements others = true ↔ statements = others := by
  induction statements generalizing others with
  | nil => cases others <;> simp [sameAll]
  | cons statement rest ih =>
    cases others with
    | nil => simp [sameAll]
    | cons other others =>
      simp [sameAll, h statement (by simp),
        ih (fun s hs => h s (List.mem_cons_of_mem _ hs))]

theorem same_iff (node other : Node) : node.same other = true ↔ node = other := by
  induction node generalizing other with
  | leaf => cases other <;> simp [same]
  | formula _ _ _ _ left right => cases other <;> simp [same, left, right, and_assoc]
  | assign _ _ _ target value => cases other <;> simp [same, target, value, and_assoc]
  | defineAlias _ _ _ key shown => cases other <;> simp [same, key, shown, and_assoc]
  | print _ _ operand => cases other <;> simp [same, operand]
  | printAlias _ _ operand => cases other <;> simp [same, operand]
  | program _ statements => cases other <;> simp [same, sameAll_iff statements]

instance : DecidableEq Node := fun node other =>
  decidable_of_iff (node.same other = true) (same_iff node other)

end Node

end EmojiScript
