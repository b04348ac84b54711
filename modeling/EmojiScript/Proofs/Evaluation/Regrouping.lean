import EmojiScript.Proofs.Evaluation.Faults
import EmojiScript.Proofs.Layout
import Mathlib.Algebra.Ring.Int.Defs

namespace EmojiScript

/-!
# Sums do not depend on their groups

A sum is evaluated from left to right, the operands in parentheses before the operations that they
stand in, so that parentheses say which operations come first.  Of a formula that only adds they say
nothing that its result depends on: texts are joined in the order of the leaves, numbers come to the
exact sum of the leaves wherever no operation on the way overflows, and texts do not go with numbers
however they are grouped.

* `Node.leaves`, `Node.OnlyAdds` — sums and what they add.
* `Node.OnlyAdds.outcome_texts`, `Node.OnlyAdds.outcome_numbers`, `Node.OnlyAdds.kind_eq` — a sum of
  texts, a sum of numbers, and any sum that has a value.
* `Node.IsFormula.leafOutcomes_eq` — the leaves of two formulas that differ in their groups.
* `regrouped_sums_agree` — formulas that were read from tokens.
-/

namespace Node

/-! ### Sums and their leaves -/

/-- The leaves of a formula from left to right. -/
def leaves : Node → List (Leaf × Token)
  | leaf form token => [(form, token)]
  | formula _ _ left right => left.leaves ++ right.leaves
  | _ => []

/-- The tokens of the leaves, which parentheses do not change but for their places. -/
def leafTokens (node : Node) : List Token := node.leaves.map Prod.snd

/-- A formula whose operations are all additions. -/
inductive OnlyAdds : Node → Prop where
  | leaf {form : Leaf} {token : Token} : OnlyAdds (leaf form token)
  | sum {operator : Token} {left right : Node} : OnlyAdds left → OnlyAdds right →
      OnlyAdds (formula .add operator left right)

/-- What the leaves of a formula come to in a scope. -/
def leafOutcomes (scope : Scope) (node : Node) : List (Except Fault Value) :=
  node.leaves.map fun (form, token) => form.outcome scope token

variable {scope : Scope}

/-- A leaf has one value, which is its own. -/
theorem exists_outcome_leaf {form : Leaf} {token : Token} {values : List Value}
    (h : (leaf form token).leafOutcomes scope = values.map .ok) :
    ∃ value, values = [value] ∧ (leaf form token).outcome scope = .ok value := by
  obtain ⟨value, hvalues, hvalue⟩ := List.map_eq_singleton_iff.mp h.symm
  exact ⟨value, hvalues, hvalue.symm⟩

/-- Values of the leaves of a formula are values of the leaves of either operand. -/
theorem exists_leafOutcomes_eq {op : Arithmetic} {operator : Token} {left right : Node}
    {values : List Value}
    (h : (formula op operator left right).leafOutcomes scope = values.map .ok) :
    ∃ lefts rights, values = lefts ++ rights ∧ left.leafOutcomes scope = lefts.map .ok ∧
      right.leafOutcomes scope = rights.map .ok := by
  have happend : left.leafOutcomes scope ++ right.leafOutcomes scope = values.map .ok :=
    List.map_append.symm.trans h
  obtain ⟨lefts, rights, hvalues, hleft, hright⟩ := List.append_eq_map_iff.mp happend
  exact ⟨lefts, rights, hvalues, hleft.symm, hright.symm⟩

/-! ### What sums come to -/

/-- **Sums of texts** join the texts of the leaves. -/
theorem OnlyAdds.outcome_texts {node : Node} (h : node.OnlyAdds) {texts : List String}
    (hleaves : node.leafOutcomes scope = (texts.map Value.text).map .ok) :
    node.outcome scope = .ok (.text (String.join texts)) := by
  induction h generalizing texts with
  | leaf =>
    obtain ⟨value, htexts, hvalue⟩ := exists_outcome_leaf hleaves
    obtain ⟨text, rfl, rfl⟩ := List.map_eq_singleton_iff.mp htexts
    rw [hvalue, String.join_cons, String.join_nil, String.append_empty]
  | @sum operator left right _ _ ihleft ihright =>
    obtain ⟨lefts, rights, htexts, hleft, hright⟩ := exists_leafOutcomes_eq hleaves
    obtain ⟨leftTexts, rightTexts, rfl, rfl, rfl⟩ := List.map_eq_append_iff.mp htexts
    rw [outcome, ihleft hleft, ihright hright, String.join_append]
    rfl

/-- **Sums of numbers** are exact, unless one of their operations overflows. -/
theorem OnlyAdds.outcome_numbers {node : Node} (h : node.OnlyAdds) {numbers : List Int64}
    (hleaves : node.leafOutcomes scope = (numbers.map Value.int).map .ok) :
    (∃ n, node.outcome scope = .ok (.int n) ∧ n.toInt = (numbers.map Int64.toInt).sum) ∨
      ∃ operator line, node.outcome scope = .error (.runtime (.overflow operator line)) := by
  induction h generalizing numbers with
  | leaf =>
    obtain ⟨value, hnumbers, hvalue⟩ := exists_outcome_leaf hleaves
    obtain ⟨number, rfl, rfl⟩ := List.map_eq_singleton_iff.mp hnumbers
    exact .inl ⟨number, hvalue, by simp⟩
  | @sum operator left right _ _ ihleft ihright =>
    obtain ⟨lefts, rights, hnumbers, hleft, hright⟩ := exists_leafOutcomes_eq hleaves
    obtain ⟨leftNumbers, rightNumbers, rfl, rfl, rfl⟩ := List.map_eq_append_iff.mp hnumbers
    rcases ihleft hleft with ⟨a, ha, hasum⟩ | ⟨text, line, hoverflow⟩
    · rcases ihright hright with ⟨b, hb, hbsum⟩ | ⟨text, line, hoverflow⟩
      · -- both operands are exact, so this operation is the first one that can overflow
        rcases Arithmetic.add.apply_int_cases operator a b with ⟨n, hadd, hn⟩ | ⟨_, hadd⟩
        · refine .inl ⟨n, ?_, ?_⟩
          · rw [outcome, ha, hb]
            exact hadd
          · rw [List.map_append, List.sum_append, hn, Arithmetic.exact, hasum, hbsum]
        · refine .inr ⟨operator.text, operator.line, ?_⟩
          rw [outcome, ha, hb]
          exact hadd
      · refine .inr ⟨text, line, ?_⟩
        rw [outcome, ha, hoverflow]
        rfl
    · refine .inr ⟨text, line, ?_⟩
      rw [outcome, hoverflow]
      rfl

/-- **Sums that have a value** have leaves of its kind only. -/
theorem OnlyAdds.kind_eq {node : Node} (h : node.OnlyAdds) {values : List Value} {result : Value}
    (hleaves : node.leafOutcomes scope = values.map .ok) (hresult : node.outcome scope = .ok result) :
    ∀ value ∈ values, value.kind = result.kind := by
  induction h generalizing values result with
  | leaf =>
    obtain ⟨value, rfl, hvalue⟩ := exists_outcome_leaf hleaves
    obtain rfl := Except.ok.inj (hvalue.symm.trans hresult)
    simp
  | @sum operator left right _ _ ihleft ihright =>
    obtain ⟨lefts, rights, rfl, hleft, hright⟩ := exists_leafOutcomes_eq hleaves
    rw [outcome] at hresult
    cases ha : left.outcome scope with
    | error =>
      rw [ha] at hresult
      cases hresult
    | ok a =>
      cases hb : right.outcome scope with
      | error =>
        rw [ha, hb] at hresult
        cases hresult
      | ok b =>
        rw [ha, hb] at hresult
        -- an operation that succeeds has operands and a result of one kind
        have hkinds : a.kind = result.kind ∧ b.kind = result.kind := by
          rcases Arithmetic.add.apply_cases operator a b with
            ⟨value, hok, hkind⟩ | ⟨_, _, _, _, _, herror⟩ | ⟨_, herror⟩
          · obtain rfl := Except.ok.inj (hok.symm.trans hresult)
            cases a <;> cases b <;> simp_all [Arithmetic.resultKind?]
          · cases herror.symm.trans hresult
          · cases herror.symm.trans hresult
        refine List.forall_mem_append.mpr ⟨?_, ?_⟩
        · rw [← hkinds.1]
          exact ihleft hleft ha
        · rw [← hkinds.2]
          exact ihright hright hb

/-! ### Leaves of two formulas -/

theorem IsFormula.kind_of_mem_leaves {node : Node} (h : node.IsFormula) {form : Leaf} {token : Token}
    (hmem : (form, token) ∈ node.leaves) : token.kind = form.kind := by
  induction h with
  | leaf _ hkind =>
    obtain ⟨rfl, rfl⟩ := Prod.mk.inj (List.mem_singleton.mp hmem)
    exact hkind
  | formula _ _ _ ihleft ihright =>
    rcases List.mem_append.mp hmem with hleft | hright
    · exact ihleft hleft
    · exact ihright hright

/-- Leaves of alike tokens come to the same, wherever these stand. -/
theorem outcome_of_alike {form form' : Leaf} {token token' : Token} (hkind : token.kind = form.kind)
    (hkind' : token'.kind = form'.kind) (h : token.Alike token') :
    form.outcome scope token = form'.outcome scope token' := by
  obtain ⟨hkinds, htext⟩ := h
  obtain rfl : form = form' := Leaf.kind_inj (hkind.symm.trans (hkinds.trans hkind'))
  cases form <;> simp only [Leaf.outcome, htext]

/-- **Leaves of two formulas** with alike tokens come to the same, however they are grouped. -/
theorem IsFormula.leafOutcomes_eq {node other : Node} (h : node.IsFormula) (h' : other.IsFormula)
    (halike : List.Forall₂ Token.Alike node.leafTokens other.leafTokens) (scope : Scope) :
    node.leafOutcomes scope = other.leafOutcomes scope := by
  have hsame : List.Forall₂ (fun leaf leaf' : Leaf × Token => leaf.2.Alike leaf'.2) node.leaves
      other.leaves := List.forall₂_map_right_iff.mp (List.forall₂_map_left_iff.mp halike)
  have hkind : ∀ leaf ∈ node.leaves, leaf.2.kind = leaf.1.kind :=
    fun leaf hmem => h.kind_of_mem_leaves hmem
  have hkind' : ∀ leaf ∈ other.leaves, leaf.2.kind = leaf.1.kind :=
    fun leaf hmem => h'.kind_of_mem_leaves hmem
  unfold leafOutcomes
  generalize node.leaves = leaves at hsame hkind ⊢
  generalize other.leaves = others at hsame hkind' ⊢
  induction hsame with
  | nil => rfl
  | cons hfirst _ ih =>
    obtain ⟨hfirstKind, hrestKind⟩ := List.forall_mem_cons.mp hkind
    obtain ⟨hfirstKind', hrestKind'⟩ := List.forall_mem_cons.mp hkind'
    exact congrArg₂ List.cons (outcome_of_alike hfirstKind hfirstKind' hfirst)
      (ih hrestKind hrestKind')

/-- A formula of a statement that was read from tokens. -/
def IsRead (node : Node) : Prop :=
  ∃ tokens statements statement, parse tokens = .ok (.program statements) ∧
    statement ∈ statements ∧ statement.formula? = some node

theorem IsRead.isFormula {node : Node} (h : node.IsRead) : node.IsFormula := by
  obtain ⟨tokens, statements, statement, hparse, hmem, hformula⟩ := h
  obtain ⟨_, ⟨⟩, hstatements⟩ := exists_statements_of_parse hparse
  exact (hstatements statement hmem).isFormula hformula

/-! ### Evaluation on a machine -/

variable {σ : Type} {node : Node} {machine : Machine σ}

/-- On a machine, the leaves of a formula evaluate to these values, from left to right. -/
def LeavesComeTo (node : Node) (machine : Machine σ) (values : List Value) : Prop :=
  node.leaves.map (fun (form, token) => (form.evaluate token).runOn machine) =
    values.map fun value => (.ok value, machine)

theorem LeavesComeTo.leafOutcomes_eq {values : List Value} (h : node.LeavesComeTo machine values) :
    node.leafOutcomes machine.context.scope = values.map .ok := by
  have hresults := congrArg (List.map Prod.fst) h
  simpa [leafOutcomes, Leaf.runOn_evaluate, Function.comp_def] using hresults

variable [Sink σ]

/-- A formula evaluates to this value and leaves the machine. -/
def ComesTo (node : Node) (machine : Machine σ) (value : Value) : Prop :=
  node.evaluate.runOn machine = (.ok (some value), machine)

/-- A formula stops with this fault and leaves the machine. -/
def StopsWith (node : Node) (machine : Machine σ) (fault : Fault) : Prop :=
  node.evaluate.runOn machine = (.error fault, machine)

/-- A formula stops because the result of one of its operations does not fit. -/
def Overflows (node : Node) (machine : Machine σ) : Prop :=
  ∃ operator line, node.StopsWith machine (.runtime (.overflow operator line))

theorem IsFormula.comesTo {value : Value} (h : node.IsFormula)
    (houtcome : node.outcome machine.context.scope = .ok value) : node.ComesTo machine value := by
  rw [ComesTo, h.runOn_evaluate, houtcome]
  rfl

theorem IsFormula.stopsWith {fault : Fault} (h : node.IsFormula)
    (houtcome : node.outcome machine.context.scope = .error fault) :
    node.StopsWith machine fault := by
  rw [StopsWith, h.runOn_evaluate, houtcome]
  rfl

/-- A sum with a text and a number among its leaves has no value, for it would have to be of both
kinds. -/
theorem IsFormula.exists_stopsWith {values : List Value} {n : Int64} {s : String}
    (h : node.IsFormula) (hadds : node.OnlyAdds)
    (hleaves : node.leafOutcomes machine.context.scope = values.map .ok) (hn : .int n ∈ values)
    (hs : .text s ∈ values) : ∃ fault, node.StopsWith machine fault := by
  cases houtcome : node.outcome machine.context.scope with
  | error fault => exact ⟨fault, h.stopsWith houtcome⟩
  | ok result =>
    have hnumber := hadds.kind_eq hleaves houtcome _ hn
    have hstring := hadds.kind_eq hleaves houtcome _ hs
    cases hnumber.trans hstring.symm

end Node

/-- **Regrouped sums agree.** Take two formulas that only add, each read from tokens within the limits
of the parser, with alike leaves in the same order but any two groupings, and any machine.  If the
leaves are texts, both formulas come to these texts joined in their order.  If the leaves are numbers,
one of the formulas overflows or both come to the same number, which is the exact sum of the leaves.
If there are texts and numbers among the leaves, both formulas fail. -/
theorem regrouped_sums_agree {node other : Node} (hread : node.IsRead) (hread' : other.IsRead)
    (hadds : node.OnlyAdds) (hadds' : other.OnlyAdds)
    (halike : List.Forall₂ Token.Alike node.leafTokens other.leafTokens)
    {σ : Type} [Sink σ] (machine : Machine σ) :
    (∀ texts : List String, node.LeavesComeTo machine (texts.map .text) →
      node.ComesTo machine (.text (String.join texts)) ∧
        other.ComesTo machine (.text (String.join texts))) ∧
    (∀ numbers : List Int64, node.LeavesComeTo machine (numbers.map .int) →
      node.Overflows machine ∨ other.Overflows machine ∨
        ∃ n, node.ComesTo machine (.int n) ∧ other.ComesTo machine (.int n) ∧
          n.toInt = (numbers.map Int64.toInt).sum) ∧
    ∀ values, node.LeavesComeTo machine values → (∃ n, .int n ∈ values) → (∃ s, .text s ∈ values) →
      (∃ fault, node.StopsWith machine fault) ∧ ∃ fault, other.StopsWith machine fault := by
  have hformula := hread.isFormula
  have hformula' := hread'.isFormula
  have hsame := hformula.leafOutcomes_eq hformula' halike machine.context.scope
  refine ⟨?_, ?_, ?_⟩
  · intro texts hleaves
    have houtcomes := hleaves.leafOutcomes_eq
    exact ⟨hformula.comesTo (hadds.outcome_texts houtcomes),
      hformula'.comesTo (hadds'.outcome_texts (hsame.symm.trans houtcomes))⟩
  · intro numbers hleaves
    have houtcomes := hleaves.leafOutcomes_eq
    rcases hadds.outcome_numbers houtcomes with ⟨n, hn, hsum⟩ | ⟨text, line, hoverflow⟩
    · rcases hadds'.outcome_numbers (hsame.symm.trans houtcomes) with
        ⟨n', hn', hsum'⟩ | ⟨text, line, hoverflow⟩
      · -- two words with the same exact value are one
        obtain rfl : n = n' := Int64.toInt_inj.mp (hsum.trans hsum'.symm)
        exact .inr (.inr ⟨n, hformula.comesTo hn, hformula'.comesTo hn', hsum⟩)
      · exact .inr (.inl ⟨text, line, hformula'.stopsWith hoverflow⟩)
    · exact .inl ⟨text, line, hformula.stopsWith hoverflow⟩
  · rintro values hleaves ⟨n, hn⟩ ⟨s, hs⟩
    have houtcomes := hleaves.leafOutcomes_eq
    exact ⟨hformula.exists_stopsWith hadds houtcomes hn hs,
      hformula'.exists_stopsWith hadds' (hsame.symm.trans houtcomes) hn hs⟩

/-- The formula of `print x + y + x#;`. -/
def groupedLeft : Node :=
  .formula .add ⟨.plus, "+", ⟨12, 1⟩⟩
    (.formula .add ⟨.plus, "+", ⟨8, 1⟩⟩ (.leaf .word ⟨.word, "x", ⟨6, 1⟩⟩)
      (.leaf .word ⟨.word, "y", ⟨10, 1⟩⟩))
    (.leaf .word ⟨.word, "x", ⟨14, 1⟩⟩)

/-- The formula of `print x + (y + x)#;`. -/
def groupedRight : Node :=
  .formula .add ⟨.plus, "+", ⟨8, 1⟩⟩ (.leaf .word ⟨.word, "x", ⟨6, 1⟩⟩)
    (.formula .add ⟨.plus, "+", ⟨13, 1⟩⟩ (.leaf .word ⟨.word, "y", ⟨11, 1⟩⟩)
      (.leaf .word ⟨.word, "x", ⟨15, 1⟩⟩))

/-- A machine on which both variables are texts. -/
def twoTexts : Machine Buffer where
  context := (Context.define {} "x" (.text "a")).define "y" (.text "b")
  sink := {}

theorem regrouped_sums_agree_twoTexts :
    groupedLeft.IsRead ∧ groupedRight.IsRead ∧ groupedLeft.OnlyAdds ∧ groupedRight.OnlyAdds ∧
      List.Forall₂ Token.Alike groupedLeft.leafTokens groupedRight.leafTokens ∧
      groupedLeft.LeavesComeTo twoTexts [.text "a", .text "b", .text "a"] ∧
      groupedLeft.ComesTo twoTexts (.text "aba") ∧ groupedRight.ComesTo twoTexts (.text "aba") := by
  have hread : groupedLeft.IsRead :=
    ⟨[⟨.print, "print", ⟨0, 1⟩⟩, ⟨.word, "x", ⟨6, 1⟩⟩, ⟨.plus, "+", ⟨8, 1⟩⟩,
        ⟨.word, "y", ⟨10, 1⟩⟩, ⟨.plus, "+", ⟨12, 1⟩⟩, ⟨.word, "x", ⟨14, 1⟩⟩,
        ⟨.hash, "#", ⟨15, 1⟩⟩, ⟨.semicolon, ";", ⟨16, 1⟩⟩],
      _, .print ⟨.print, "print", ⟨0, 1⟩⟩ groupedLeft, rfl, List.mem_singleton_self _, rfl⟩
  have hread' : groupedRight.IsRead :=
    ⟨[⟨.print, "print", ⟨0, 1⟩⟩, ⟨.word, "x", ⟨6, 1⟩⟩, ⟨.plus, "+", ⟨8, 1⟩⟩,
        ⟨.openParen, "(", ⟨10, 1⟩⟩, ⟨.word, "y", ⟨11, 1⟩⟩, ⟨.plus, "+", ⟨13, 1⟩⟩,
        ⟨.word, "x", ⟨15, 1⟩⟩, ⟨.closeParen, ")", ⟨16, 1⟩⟩, ⟨.hash, "#", ⟨17, 1⟩⟩,
        ⟨.semicolon, ";", ⟨18, 1⟩⟩],
      _, .print ⟨.print, "print", ⟨0, 1⟩⟩ groupedRight, rfl, List.mem_singleton_self _, rfl⟩
  have hadds : groupedLeft.OnlyAdds := .sum (.sum .leaf .leaf) .leaf
  have hadds' : groupedRight.OnlyAdds := .sum .leaf (.sum .leaf .leaf)
  have halike : List.Forall₂ Token.Alike groupedLeft.leafTokens groupedRight.leafTokens :=
    .cons ⟨rfl, rfl⟩ (.cons ⟨rfl, rfl⟩ (.cons ⟨rfl, rfl⟩ .nil))
  have hleaves : groupedLeft.LeavesComeTo twoTexts (["a", "b", "a"].map .text) := rfl
  obtain ⟨htexts, _, _⟩ := regrouped_sums_agree hread hread' hadds hadds' halike twoTexts
  obtain ⟨hleft, hright⟩ := htexts ["a", "b", "a"] hleaves
  exact ⟨hread, hread', hadds, hadds', halike, hleaves, hleft, hright⟩

end EmojiScript
