import EmojiScript.Proofs.Parser.Shape
import EmojiScript.Proofs.Scanner.Gaps
import EmojiScript.Proofs.Source
import EmojiScript.Tree.SExpr

namespace EmojiScript

/-!
# What an S-expression says

S-expressions escape nothing, and a text in quotes may look like any of them, line breaks included.
Yet the tree of a source can be told from its S-expression, but for the places of its tokens: a text
ends at its second quote, every other leaf in front of a space or a closing parenthesis, and
everything else is in parentheses.  So wherever two expressions stand at the front of one text, they
are the same, and so is what stands behind them.

* `Token.Scannable.alike_of_append` — leaves at the front of a text.
* `Node.Told` — parts of an expression at the front of a text.
* `Node.IsFormula.told`, `Node.IsStatement.sexpr_append_inj` — formulas and statements.
* `compile_sexpr_eq_iff` — the programs of two sources.
-/

variable {token other : Token} {rest rest' more : List Char}

/-! ### Leaves -/

/-- What stands behind a part of an expression: a space and the next part, or the closing
parenthesis. -/
inductive Delimited : List Char → Prop where
  | space (rest : List Char) : Delimited (' ' :: rest)
  | close (rest : List Char) : Delimited (')' :: rest)

/-- No token runs on into what delimits it. -/
theorem Delimited.runsOn (h : Delimited rest) {kind : Kind} (hkind : kind ≠ .space) :
    ∀ c ∈ rest.head?, kind.runsOn c = false := by
  intro c hc
  cases h with
  | space rest =>
    obtain rfl : ' ' = c := Option.some.inj hc
    exact Kind.runsOn_of_isBlank hkind rfl
  | close rest =>
    obtain rfl : ')' = c := Option.some.inj hc
    cases kind <;> rfl

namespace Token.Scannable

/-- Tokens at the front of one text are alike, if what stands behind each of them delimits it. -/
theorem alike_of_append (h : token.Scannable) (hother : other.Scannable)
    (hrest : Delimited rest) (hrest' : Delimited rest')
    (heq : token.text.toList ++ rest = other.text.toList ++ rest') :
    token.Alike other ∧ rest = rest' := by
  have hfound := (Kind.find?_append_iff h.find?_eq).mpr (hrest.runsOn h.ne_space)
  have hfound' := (Kind.find?_append_iff hother.find?_eq).mpr (hrest'.runsOn hother.ne_space)
  rw [heq, hfound'] at hfound
  obtain ⟨hkind, htext⟩ := Prod.mk.inj (Option.some.inj hfound)
  rw [htext] at heq
  exact ⟨⟨hkind.symm, String.toList_inj.mp htext.symm⟩, List.append_cancel_left heq⟩

/-- Keywords and signs of one kind have one text. -/
theorem alike_of_kind_eq (h : token.Scannable) (hother : other.Scannable) {kind : Kind}
    (hkind : token.kind = kind) (hkind' : other.kind = kind)
    (hspelled : kind ∈ [.print, .ejprint, .ejkey, .equals, .plus, .minus]) :
    token.Alike other := by
  refine ⟨hkind.trans hkind'.symm, String.toList_inj.mp ?_⟩
  obtain ⟨-, htext, hne⟩ := Kind.find?_eq_some h.find?_eq
  obtain ⟨-, htext', hne'⟩ := Kind.find?_eq_some hother.find?_eq
  rw [htext, hkind] at hne
  rw [htext', hkind'] at hne'
  rw [htext, htext', hkind, hkind']
  simp only [List.mem_cons, List.not_mem_nil, or_false] at hspelled
  rcases hspelled with rfl | rfl | rfl | rfl | rfl | rfl <;>
    exact (Kind.literal_eq_of_ne_nil hne).trans (Kind.literal_eq_of_ne_nil hne').symm

/-- Only a parenthesis opens one. -/
theorem append_ne_openParen (h : token.Scannable) (hkind : token.kind ≠ .openParen) :
    token.text.toList ++ rest ≠ '(' :: more := by
  intro heq
  obtain ⟨c, text, htext, hlexeme⟩ := h.exists_cons
  rw [htext, List.cons_append] at heq
  obtain ⟨rfl, -⟩ := List.cons.inj heq
  exact hkind (List.mem_singleton.mp (Kind.mem_beginningWith hlexeme))

end Token.Scannable

namespace Node

/-! ### Parts -/

/-- If these two nodes stand at the front of one text, each delimited by what stands behind it,
then they are the same but for their places, and so is what stands behind them. -/
def Told (node node' : Node) : Prop :=
  ∀ ⦃rest rest' : List Char⦄, Delimited rest → Delimited rest' →
    node.sexpr.toList ++ rest = node'.sexpr.toList ++ rest' →
    node.relocate .nowhere = node'.relocate .nowhere ∧ rest = rest'

/-- One part in front of a closing parenthesis. -/
theorem Told.close {node node' : Node} (h : Told node node')
    (heq : node.sexpr.toList ++ ')' :: rest = node'.sexpr.toList ++ ')' :: rest') :
    node.relocate .nowhere = node'.relocate .nowhere ∧ rest = rest' := by
  obtain ⟨hnode, heq⟩ := h (.close _) (.close _) heq
  exact ⟨hnode, (List.cons.inj heq).2⟩

/-- Two parts in front of a closing parenthesis. -/
theorem Told.pair {left right left' right' : Node} (hleft : Told left left')
    (hright : Told right right')
    (heq : left.sexpr.toList ++ ' ' :: (right.sexpr.toList ++ ')' :: rest) =
      left'.sexpr.toList ++ ' ' :: (right'.sexpr.toList ++ ')' :: rest')) :
    left.relocate .nowhere = left'.relocate .nowhere ∧
      right.relocate .nowhere = right'.relocate .nowhere ∧ rest = rest' := by
  obtain ⟨hnode, heq⟩ := hleft (.space _) (.space _) heq
  exact ⟨hnode, hright.close (List.cons.inj heq).2⟩

theorem leafKind_ne_openParen (form : Leaf) : form.kind ≠ .openParen := by
  cases form <;> decide

theorem told_leaf {form form' : Leaf} (hkind : token.kind = form.kind)
    (hkind' : other.kind = form'.kind) (h : token.Scannable) (hother : other.Scannable) :
    Told (leaf form token) (leaf form' other) := by
  intro rest rest' hrest hrest' heq
  obtain ⟨halike, hrest⟩ := h.alike_of_append hother hrest hrest' heq
  obtain rfl : form = form' := Leaf.kind_inj (hkind.symm.trans (halike.1.trans hkind'))
  refine ⟨?_, hrest⟩
  rw [relocate, relocate, halike.relocate_nowhere]

/-- A leaf is not in parentheses. -/
theorem leaf_append_ne_openParen {form : Leaf} (hkind : token.kind = form.kind)
    (h : token.Scannable) : (leaf form token).sexpr.toList ++ rest ≠ '(' :: more :=
  h.append_ne_openParen (hkind ▸ leafKind_ne_openParen form)

/-! ### Formulas -/

theorem toList_sexpr_formula (op : Arithmetic) (operator : Token) (left right : Node)
    (rest : List Char) :
    (formula op operator left right).sexpr.toList ++ rest =
      '(' :: (op.sign.toList ++ ' ' ::
        (left.sexpr.toList ++ ' ' :: (right.sexpr.toList ++ ')' :: rest))) := by
  simp [sexpr]

theorem sign_append_inj {op op' : Arithmetic}
    (heq : op.sign.toList ++ rest = op'.sign.toList ++ rest') : op = op' ∧ rest = rest' := by
  cases op <;> cases op' <;> simp_all [Arithmetic.sign]

/-- **Formulas** can be told from their S-expressions at the front of a text. -/
theorem IsFormula.told {node node' : Node} (h : node.IsFormula) (h' : node'.IsFormula)
    (hscan : ∀ token ∈ node.inOrder, token.Scannable)
    (hscan' : ∀ token ∈ node'.inOrder, token.Scannable) : Told node node' := by
  induction h generalizing node' with
  | @leaf form token _ hkind =>
    have htoken := hscan token List.mem_cons_self
    cases h' with
    | @leaf form' other _ hkind' =>
      exact told_leaf hkind hkind' htoken (hscan' other List.mem_cons_self)
    | formula =>
      -- only the operation begins with a parenthesis
      intro rest rest' _ _ heq
      rw [toList_sexpr_formula] at heq
      exact absurd heq (leaf_append_ne_openParen hkind htoken)
  | @formula op operator left right hoperator hleft hright ihleft ihright =>
    intro rest rest' _ _ heq
    rw [toList_sexpr_formula] at heq
    cases h' with
    | @leaf form' other _ hkind' =>
      have hother := hscan' other List.mem_cons_self
      exact absurd heq.symm (leaf_append_ne_openParen hkind' hother)
    | @formula op' operator' left' right' hoperator' hleft' hright' =>
      rw [toList_sexpr_formula] at heq
      simp only [inOrder, List.forall_mem_append, List.forall_mem_cons] at hscan hscan'
      obtain ⟨hscanLeft, hscanOp, hscanRight⟩ := hscan
      obtain ⟨hscanLeft', hscanOp', hscanRight'⟩ := hscan'
      obtain ⟨hop, heq⟩ := sign_append_inj (List.cons.inj heq).2
      obtain ⟨hleftEq, hrightEq, hrest⟩ := Told.pair (ihleft hleft' hscanLeft hscanLeft')
        (ihright hright' hscanRight hscanRight') (List.cons.inj heq).2
      have hsign := hscanOp.alike_of_kind_eq hscanOp' hoperator (hop ▸ hoperator')
        (by cases op <;> decide)
      refine ⟨?_, hrest⟩
      rw [Node.relocate, hop, hsign.relocate_nowhere, hleftEq, hrightEq]
      rfl

/-! ### Statements -/

theorem toList_sexpr_assign (operator : Token) (target value : Node) (rest : List Char) :
    (assign operator target value).sexpr.toList ++ rest =
      '(' :: '=' :: ' ' :: (target.sexpr.toList ++ ' ' :: (value.sexpr.toList ++ ')' :: rest)) := by
  simp [sexpr]

theorem toList_sexpr_defineAlias (operator : Token) (key shown : Node) (rest : List Char) :
    (defineAlias operator key shown).sexpr.toList ++ rest =
      '(' :: 'e' :: 'j' :: 'k' :: 'e' :: 'y' :: ' ' ::
        (key.sexpr.toList ++ ' ' :: (shown.sexpr.toList ++ ')' :: rest)) := by
  simp [sexpr]

theorem toList_sexpr_print (operator : Token) (operand : Node) (rest : List Char) :
    (print operator operand).sexpr.toList ++ rest =
      '(' :: 'p' :: 'r' :: 'i' :: 'n' :: 't' :: ' ' :: (operand.sexpr.toList ++ ')' :: rest) := by
  simp [sexpr]

theorem toList_sexpr_printAlias (operator : Token) (operand : Node) (rest : List Char) :
    (printAlias operator operand).sexpr.toList ++ rest =
      '(' :: 'e' :: 'j' :: 'p' :: 'r' :: 'i' :: 'n' :: 't' :: ' ' ::
        (operand.sexpr.toList ++ ')' :: rest) := by
  simp [sexpr]

/-- **Statements at the front of one text** are the same but for their places, and so is what stands
behind them, whatever it is. -/
theorem IsStatement.sexpr_append_inj {node node' : Node} (h : node.IsStatement)
    (h' : node'.IsStatement) (hscan : ∀ token ∈ node.inOrder, token.Scannable)
    (hscan' : ∀ token ∈ node'.inOrder, token.Scannable)
    (heq : node.sexpr.toList ++ rest = node'.sexpr.toList ++ rest') :
    node.relocate .nowhere = node'.relocate .nowhere ∧ rest = rest' := by
  -- statements of two forms differ within their first words
  cases h with
  | @assign name operator value hname hoperator hvalue =>
    cases h' with
    | @assign name' operator' value' hname' hoperator' hvalue' =>
      simp only [toList_sexpr_assign, List.cons.injEq, true_and] at heq
      simp only [inOrder, List.forall_mem_append, List.forall_mem_cons] at hscan hscan'
      obtain ⟨⟨hscanName, -⟩, hscanOp, hscanValue⟩ := hscan
      obtain ⟨⟨hscanName', -⟩, hscanOp', hscanValue'⟩ := hscan'
      have hnames : Told (leaf .word name) (leaf .word name') :=
        told_leaf hname hname' hscanName hscanName'
      obtain ⟨hnameEq, hvalueEq, hrest⟩ :=
        hnames.pair (hvalue.told hvalue' hscanValue hscanValue') heq
      have hsign := hscanOp.alike_of_kind_eq hscanOp' hoperator hoperator' (by decide)
      refine ⟨?_, hrest⟩
      rw [relocate, hsign.relocate_nowhere, hnameEq, hvalueEq]
      rfl
    | _ => simp [sexpr] at heq
  | @defineAlias keyword key shown form hkeyword hkey _ hshown =>
    cases h' with
    | @defineAlias keyword' key' shown' form' hkeyword' hkey' _ hshown' =>
      simp only [toList_sexpr_defineAlias, List.cons.injEq, true_and] at heq
      simp only [inOrder, List.forall_mem_append, List.forall_mem_cons] at hscan hscan'
      obtain ⟨hscanOp, ⟨hscanKey, -⟩, hscanShown, -⟩ := hscan
      obtain ⟨hscanOp', ⟨hscanKey', -⟩, hscanShown', -⟩ := hscan'
      obtain ⟨hkeyEq, hshownEq, hrest⟩ := Told.pair (told_leaf hkey hkey' hscanKey hscanKey')
        (told_leaf hshown hshown' hscanShown hscanShown') heq
      have hsign := hscanOp.alike_of_kind_eq hscanOp' hkeyword hkeyword' (by decide)
      refine ⟨?_, hrest⟩
      rw [relocate, hsign.relocate_nowhere, hkeyEq, hshownEq]
      rfl
    | _ => simp [sexpr] at heq
  | @print operator operand hoperator hoperand =>
    cases h' with
    | @print operator' operand' hoperator' hoperand' =>
      simp only [toList_sexpr_print, List.cons.injEq, true_and] at heq
      simp only [inOrder, List.forall_mem_cons] at hscan hscan'
      obtain ⟨hoperandEq, hrest⟩ := (hoperand.told hoperand' hscan.2 hscan'.2).close heq
      have hsign := hscan.1.alike_of_kind_eq hscan'.1 hoperator hoperator' (by decide)
      refine ⟨?_, hrest⟩
      rw [relocate, hsign.relocate_nowhere, hoperandEq]
      rfl
    | _ => simp [sexpr] at heq
  | @printAlias operator operand hoperator hoperand =>
    cases h' with
    | @printAlias operator' operand' hoperator' hoperand' =>
      simp only [toList_sexpr_printAlias, List.cons.injEq, true_and] at heq
      simp only [inOrder, List.forall_mem_cons] at hscan hscan'
      obtain ⟨hoperandEq, hrest⟩ := (hoperand.told hoperand' hscan.2 hscan'.2).close heq
      have hsign := hscan.1.alike_of_kind_eq hscan'.1 hoperator hoperator' (by decide)
      refine ⟨?_, hrest⟩
      rw [relocate, hsign.relocate_nowhere, hoperandEq]
      rfl
    | _ => simp [sexpr] at heq

/-! ### Programs -/

/-- Further statements, each behind a line break. -/
def furtherSexprs (statements : List Node) : List Char :=
  statements.flatMap fun statement => '\n' :: statement.sexpr.toList

theorem toList_sexprs_cons (statement : Node) (rest : List Node) :
    (sexprs (statement :: rest)).toList = statement.sexpr.toList ++ furtherSexprs rest := by
  induction rest generalizing statement with
  | nil => simp [sexprs, furtherSexprs]
  | cons next rest ih => simp [sexprs, ih, furtherSexprs]

theorem furtherSexprs_inj {statements others : List Node}
    (h : ∀ statement ∈ statements, statement.IsStatement)
    (h' : ∀ other ∈ others, other.IsStatement)
    (hscan : ∀ token ∈ inOrderAll statements, token.Scannable)
    (hscan' : ∀ token ∈ inOrderAll others, token.Scannable)
    (heq : furtherSexprs statements = furtherSexprs others) :
    statements.map (relocate .nowhere) = others.map (relocate .nowhere) := by
  induction statements generalizing others with
  | nil =>
    cases others with
    | nil => rfl
    | cons other others => simp [furtherSexprs] at heq
  | cons statement rest ih =>
    cases others with
    | nil => simp [furtherSexprs] at heq
    | cons other others =>
      rw [List.forall_mem_cons] at h h'
      simp only [inOrderAll, List.forall_mem_append] at hscan hscan'
      simp only [furtherSexprs, List.flatMap_cons, List.cons_append, List.cons.injEq,
        true_and] at heq
      obtain ⟨hstatement, heq⟩ := h.1.sexpr_append_inj h'.1 hscan.1 hscan'.1 heq
      rw [List.map_cons, List.map_cons, hstatement, ih h.2 h'.2 hscan.2 hscan'.2 heq]

theorem IsStatement.sexpr_ne_empty {statement : Node} (h : statement.IsStatement) :
    statement.sexpr ≠ "" := by
  cases h <;> simp [sexpr]

theorem sexprs_inj {statements others : List Node}
    (h : ∀ statement ∈ statements, statement.IsStatement)
    (h' : ∀ other ∈ others, other.IsStatement)
    (hscan : ∀ token ∈ inOrderAll statements, token.Scannable)
    (hscan' : ∀ token ∈ inOrderAll others, token.Scannable)
    (heq : sexprs statements = sexprs others) :
    statements.map (relocate .nowhere) = others.map (relocate .nowhere) := by
  have hlist := congrArg String.toList heq
  cases statements with
  | nil =>
    cases others with
    | nil => rfl
    | cons other others =>
      rw [toList_sexprs_cons] at hlist
      exact absurd (String.toList_eq_nil_iff.mp (List.append_eq_nil_iff.mp hlist.symm).1)
        (h' other List.mem_cons_self).sexpr_ne_empty
  | cons statement rest =>
    cases others with
    | nil =>
      rw [toList_sexprs_cons] at hlist
      exact absurd (String.toList_eq_nil_iff.mp (List.append_eq_nil_iff.mp hlist).1)
        (h statement List.mem_cons_self).sexpr_ne_empty
    | cons other others =>
      rw [toList_sexprs_cons, toList_sexprs_cons] at hlist
      refine furtherSexprs_inj h h' hscan hscan' ?_
      simpa [furtherSexprs] using hlist

/-- An S-expression names no places. -/
theorem sexpr_relocate (move : Relocation) (node : Node) :
    (node.relocate move).sexpr = node.sexpr := by
  induction node with
  | leaf form token => simp [relocate, sexpr]
  | formula op operator left right ihleft ihright => simp [relocate, sexpr, ihleft, ihright]
  | assign operator target value ihtarget ihvalue => simp [relocate, sexpr, ihtarget, ihvalue]
  | defineAlias operator key shown ihkey ihshown => simp [relocate, sexpr, ihkey, ihshown]
  | print operator operand ih => simp [relocate, sexpr, ih]
  | printAlias operator operand ih => simp [relocate, sexpr, ih]
  | program statements ih =>
    rw [relocate, sexpr, sexpr]
    refine String.toList_inj.mp ?_
    cases statements with
    | nil => rfl
    | cons statement rest =>
      obtain ⟨hstatement, hrest⟩ := List.forall_mem_cons.mp ih
      rw [relocateAll_eq_map, List.map_cons, toList_sexprs_cons, toList_sexprs_cons, hstatement,
        furtherSexprs, furtherSexprs, List.flatMap_map, List.flatMap_congr]
      intro next hnext
      rw [hrest next hnext]

end Node

/-- Every token that the tree of a source holds is found where it stands alone. -/
theorem scannable_of_compile {source : String} {program : Node}
    (h : compile source = .ok program) : ∀ token ∈ program.inOrder, token.Scannable := by
  obtain ⟨tokens, scanner', hgives, hmem⟩ := exists_gives_of_compile h
  intro token htoken
  exact hgives.scannable token (hmem token htoken)

/-- **S-expressions determine programs.** Two sources that are programs have the same S-expression
exactly if their trees are the same but for the places of their tokens. -/
theorem compile_sexpr_eq_iff {source source' : String} {program program' : Node}
    (h : compile source = .ok program) (h' : compile source' = .ok program') :
    program.sexpr = program'.sexpr ↔ program.relocate .nowhere = program'.relocate .nowhere := by
  obtain ⟨_, _, hparse⟩ := compile_eq_ok_iff.mp h
  obtain ⟨_, _, hparse'⟩ := compile_eq_ok_iff.mp h'
  obtain ⟨statements, rfl, hstatements⟩ := exists_statements_of_parse hparse
  obtain ⟨others, rfl, hothers⟩ := exists_statements_of_parse hparse'
  constructor
  · intro heq
    rw [Node.relocate, Node.relocate, Node.relocateAll_eq_map, Node.relocateAll_eq_map,
      Node.sexprs_inj hstatements hothers (scannable_of_compile h) (scannable_of_compile h') heq]
  · intro heq
    rw [← Node.sexpr_relocate .nowhere, heq, Node.sexpr_relocate]

/-- The tree of `print "a(print b)" + 1#;` with a line break in the text, for tokens at these
places. -/
def printTwoLines (text plus one : Location) : Node :=
  .program [.print ⟨.print, "print", .start⟩
    (.formula .add ⟨.plus, "+", plus⟩ (.leaf .text ⟨.text, "\"a\n(print b)\"", text⟩)
      (.leaf .number ⟨.number, "1", one⟩))]

theorem compile_sexpr_eq_iff_printTwoLines :
    compile "print \"a\n(print b)\" + 1#;" = .ok (printTwoLines ⟨6, 1⟩ ⟨20, 2⟩ ⟨22, 2⟩) ∧
      compile "print\n(\"a\n(print b)\"+ 1) #;" = .ok (printTwoLines ⟨7, 2⟩ ⟨20, 3⟩ ⟨22, 3⟩) ∧
      (printTwoLines ⟨6, 1⟩ ⟨20, 2⟩ ⟨22, 2⟩).sexpr = "(print (+ \"a\n(print b)\" 1))" ∧
      (printTwoLines ⟨6, 1⟩ ⟨20, 2⟩ ⟨22, 2⟩).relocate .nowhere =
        (printTwoLines ⟨7, 2⟩ ⟨20, 3⟩ ⟨22, 3⟩).relocate .nowhere := by
  have h : compile "print \"a\n(print b)\" + 1#;" =
      .ok (printTwoLines ⟨6, 1⟩ ⟨20, 2⟩ ⟨22, 2⟩) := by decide +kernel
  have h' : compile "print\n(\"a\n(print b)\"+ 1) #;" =
      .ok (printTwoLines ⟨7, 2⟩ ⟨20, 3⟩ ⟨22, 3⟩) := by decide +kernel
  exact ⟨h, h', rfl, (compile_sexpr_eq_iff h h').mp rfl⟩

end EmojiScript
