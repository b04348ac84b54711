import EmojiScript.Proofs.Parser.Completeness

namespace EmojiScript

open Grammar

/-!
# The trees of programs

A tree may be made by hand with any node anywhere; those that are read from tokens have statements
at the top, formulas below them and leaves at the bottom, each with tokens of the kinds that it
stands for.

* `Node.IsFormula`, `Node.IsStatement` — what stands where in such a tree.
* `Node.formula?` — the formula of a statement.
* `exists_statements_of_parse` — a program that was read is a list of statements.
-/

namespace Node

/-- A node that was read as a formula: operations between leaves that have a value. -/
inductive IsFormula : Node → Prop where
  | leaf {form : Leaf} {token : Token} : form ≠ .emoji → token.kind = form.kind →
      IsFormula (.leaf form token)
  | formula {op : Arithmetic} {operator : Token} {left right : Node} : operator.kind = op.kind →
      IsFormula left → IsFormula right → IsFormula (.formula op operator left right)

/-- A node that was read as a statement. -/
inductive IsStatement : Node → Prop where
  | assign {name operator : Token} {value : Node} : name.kind = .word → operator.kind = .equals →
      IsFormula value → IsStatement (.assign operator (.leaf .word name) value)
  | defineAlias {keyword key shown : Token} {form : Leaf} : keyword.kind = .ejkey →
      key.kind = .word → form ≠ .number → shown.kind = form.kind →
      IsStatement (.defineAlias keyword (.leaf .word key) (.leaf form shown))
  | print {operator : Token} {operand : Node} : operator.kind = .print → IsFormula operand →
      IsStatement (.print operator operand)
  | printAlias {operator : Token} {operand : Node} : operator.kind = .ejprint →
      IsFormula operand → IsStatement (.printAlias operator operand)

/-- The formula of a statement, if it has one. -/
def formula? : Node → Option Node
  | assign _ _ value => some value
  | print _ operand | printAlias _ operand => some operand
  | _ => none

/-- The formula of a statement is one. -/
theorem IsStatement.isFormula {statement formula : Node} (h : statement.IsStatement)
    (hformula : statement.formula? = some formula) : formula.IsFormula := by
  cases h with
  | assign _ _ hvalue => exact Option.some.inj hformula ▸ hvalue
  | defineAlias => cases hformula
  | print _ hoperand => exact Option.some.inj hformula ▸ hoperand
  | printAlias _ hoperand => exact Option.some.inj hformula ▸ hoperand

end Node

/-- A phrase of the grammar amounts to a node of its own sort. -/
def Grammar.Phrase.Admits : Phrase → Node → Prop
  | program, node => ∃ statements, node = .program statements ∧
      ∀ statement ∈ statements, statement.IsStatement
  | statement, node => node.IsStatement
  | _, node => node.IsFormula

theorem admits_of_prescribes {phrase : Phrase} {tokens : List Token} {node : Node}
    (h : Prescribes phrase tokens node) : phrase.Admits node := by
  induction h with
  | done => exact ⟨[], rfl, by simp⟩
  | next _ _ _ _ hstatement hrest =>
    obtain ⟨statements, hprogram, hrest⟩ := hrest
    obtain rfl := Node.program.inj hprogram
    exact ⟨_, rfl, List.forall_mem_cons.mpr ⟨hstatement, hrest⟩⟩
  | assign hname hoperator _ hvalue => exact .assign hname hoperator hvalue
  | defineAlias hkeyword hkey hform hshown => exact .defineAlias hkeyword hkey hform hshown
  | print hoperator _ hoperand => exact .print hoperator hoperand
  | printAlias hoperator _ hoperand => exact .printAlias hoperator hoperand
  | single _ hterm => exact hterm
  | chain _ hoperator _ hleft hright => exact .formula hoperator hleft hright
  | group _ _ _ hinner => exact hinner
  | leaf hform hkind => exact .leaf hform hkind

/-- A program that was read is a list of statements. -/
theorem exists_statements_of_parse {tokens : List Token} {program : Node}
    (h : parse tokens = .ok program) :
    ∃ statements, program = .program statements ∧ ∀ statement ∈ statements, statement.IsStatement :=
  admits_of_prescribes (parse_eq_ok_iff.mp h).1

end EmojiScript
