import EmojiScript.Proofs.Parser.Shape
import EmojiScript.Proofs.Tree.Groups

namespace EmojiScript

open Grammar

/-!
# Trees that can be read, and their tokens

A tree can be read from tokens exactly if it is a program of statements whose formulas keep to the
limits.  One list of tokens it can be read from is its rendering, which puts parentheses around the
groups of its formulas and nowhere else.  Redundant parentheses only count more terms and more
nesting, so a tree that was read from any tokens keeps to the limits as well.

* `Node.IsProgram` — what can be read.
* `Node.render` — the tokens of a tree, with the parentheses that it needs.
* `keepsLimits_of_parse` — what was read keeps to the limits, whatever it was read from.
* `exists_parse_iff_isProgram` — exactly the programs can be read, and their renderings are read
  back.
-/

/-! ### Trees that can be read -/

/-- A program of statements whose formulas keep to the limits. -/
def Node.IsProgram (node : Node) : Prop :=
  ∃ statements, node = .program statements ∧ ∀ statement ∈ statements,
    statement.IsStatement ∧ ∀ formula, statement.formula? = some formula → formula.KeepsLimits

/-- What the kinds of a phrase, `extra` parentheses included, tell of its formula. -/
structure Grammar.Bounds (kinds : List Kind) (formula : Node) (extra : Nat) : Prop where
  terms : formula.leafCount + formula.groupCount + extra ≤ termCount kinds
  nesting : ∀ room, NestsWithin room kinds → formula.groupDepth + extra ≤ room

/-- A phrase within the limits has a tree within the limits. -/
def Grammar.Phrase.Measures : Phrase → List Kind → Node → Prop
  | program, kinds, node => ∀ statements, node = .program statements → Fits kinds →
      ∀ statement ∈ statements, ∀ formula, statement.formula? = some formula → formula.KeepsLimits
  | statement, kinds, node => WithinLimits (formulaOf kinds) →
      ∀ formula, node.formula? = some formula → formula.KeepsLimits
  | formula, kinds, node => Bounds kinds node 0
  | term, kinds, node => Bounds kinds node node.parens
  | operations, _, _ => True

namespace Grammar

theorem Bounds.keepsLimits {kinds : List Kind} {formula : Node} (h : Bounds kinds formula 0)
    (hlimits : WithinLimits kinds) : formula.KeepsLimits where
  terms := Nat.le_trans h.terms hlimits.terms
  nesting := Node.groupDepth_le_iff.mp (h.nesting maxNesting hlimits.nesting)

theorem Bounds.weaken {kinds : List Kind} {formula : Node} {extra : Nat}
    (h : Bounds kinds formula extra) : Bounds kinds formula 0 := by
  constructor
  · have hterms := h.terms
    omega
  · intro room hnests
    have hdepth := h.nesting room hnests
    omega

/-- Parentheses around a formula are more than enough for the node that it amounts to. -/
theorem Bounds.group {inner : List Kind} {node : Node} (h : Bounds inner node 0) :
    Bounds (.openParen :: (inner ++ [.closeParen])) node node.parens := by
  have hparens : node.parens ≤ 1 := by cases node <;> simp [Node.parens]
  constructor
  · have hterms := h.terms
    simp only [termCount_cons, termCount_append, beginsTerm, if_true]
    omega
  · intro room hnests
    obtain ⟨inside, rfl, hinside⟩ := hnests.group
    have hdepth := h.nesting inside hinside
    omega

/-- An operation has the terms of its operands and nests as deep as the deeper of them. -/
theorem Bounds.chain {before right : List Kind} {sign : Kind} {op : Arithmetic} {operator : Token}
    {left operand : Node} (hleft : Bounds before left 0) (hright : Bounds right operand operand.parens)
    (hbefore : before.count .openParen = before.count .closeParen)
    (hsign : sign = .plus ∨ sign = .minus) :
    Bounds (before ++ sign :: right) (.formula op operator left operand) 0 := by
  constructor
  · have hfirst := hleft.terms
    have hsecond := hright.terms
    have hcount : termCount (sign :: right) = termCount right := by
      rcases hsign with rfl | rfl <;> rfl
    simp only [Node.leafCount, Node.groupCount, termCount_append, hcount]
    omega
  · intro room hnests
    have hfirst := hleft.nesting room hnests.of_append
    have hsecond := hright.nesting room (hnests.of_chain hbefore hsign)
    simp only [Node.groupDepth]
    omega

theorem measures_of_prescribes {phrase : Phrase} {tokens : List Token} {node : Node}
    (h : Prescribes phrase tokens node) : phrase.Measures (tokens.map Token.kind) node := by
  induction h with
  | done =>
    rintro _ ⟨⟩ _ statement hstatement
    cases hstatement
  | next hstatement hhash hsemicolon _ statement rest =>
    rintro _ ⟨⟩ hfits
    -- the limits of the first statement and of the others come apart
    have hfree := semicolon_notMem_of_derives (derives_of_prescribes hstatement) (by decide)
    rw [List.map_append, List.map_cons, List.map_cons, hhash, hsemicolon, fits_next_iff hfree]
      at hfits
    exact List.forall_mem_cons.mpr ⟨statement hfits.1, rest _ rfl hfits.2⟩
  | assign hname hoperator _ formula =>
    rintro hlimits _ ⟨⟩
    simp only [List.map_cons, hname, hoperator, formulaOf] at hlimits
    exact formula.keepsLimits hlimits
  | defineAlias =>
    rintro _ _ ⟨⟩
  | print hoperator _ formula =>
    rintro hlimits _ ⟨⟩
    simp only [List.map_cons, hoperator, formulaOf] at hlimits
    exact formula.keepsLimits hlimits
  | printAlias hoperator _ formula =>
    rintro hlimits _ ⟨⟩
    simp only [List.map_cons, hoperator, formulaOf] at hlimits
    exact formula.keepsLimits hlimits
  | single _ term => exact term.weaken
  | chain hleft hoperator _ formula term =>
    have hsign := exists_arithmetic_iff.mp ⟨_, hoperator⟩
    rw [List.map_append, List.map_cons]
    exact formula.chain term (count_parens_of_derives (derives_of_prescribes hleft)) hsign
  | group hopening _ hclosing formula =>
    simpa [Phrase.Measures, hopening, hclosing] using formula.group
  | @leaf token form hform htoken =>
    have hcount : termCount ([token].map Token.kind) = 1 := by
      rw [List.map_singleton, htoken]
      cases form <;> first | rfl | exact absurd rfl hform
    constructor
    · rw [hcount]
      exact Nat.le_refl 1
    · exact fun room _ => Nat.zero_le room

end Grammar

/-- What was read keeps to the limits, however many parentheses it was read with. -/
theorem keepsLimits_of_parse {tokens : List Token} {statements : List Node}
    (h : parse tokens = .ok (.program statements)) {statement formula : Node}
    (hstatement : statement ∈ statements) (hformula : statement.formula? = some formula) :
    formula.KeepsLimits := by
  obtain ⟨htree, hfits⟩ := parse_eq_ok_iff.mp h
  exact measures_of_prescribes htree statements rfl hfits statement hstatement formula hformula

theorem isProgram_of_parse {tokens : List Token} {node : Node} (h : parse tokens = .ok node) :
    node.IsProgram := by
  obtain ⟨statements, rfl, hstatements⟩ := exists_statements_of_parse h
  refine ⟨statements, rfl, ?_⟩
  intro statement hstatement
  exact ⟨hstatements statement hstatement, fun formula => keepsLimits_of_parse h hstatement⟩

/-! ### Renderings -/

/-- The tokens of a program that its tree does not hold. -/
structure Punctuation where
  opening : Token
  closing : Token
  hash : Token
  semicolon : Token
  opening_kind : opening.kind = .openParen
  closing_kind : closing.kind = .closeParen
  hash_kind : hash.kind = .hash
  semicolon_kind : semicolon.kind = .semicolon

/-- Marks that stand nowhere in particular. -/
def Punctuation.plain : Punctuation where
  opening := ⟨.openParen, "(", .start⟩
  closing := ⟨.closeParen, ")", .start⟩
  hash := ⟨.hash, "#", .start⟩
  semicolon := ⟨.semicolon, ";", .start⟩
  opening_kind := rfl
  closing_kind := rfl
  hash_kind := rfl
  semicolon_kind := rfl

/-- A right operand with the parentheses that it needs. -/
def Punctuation.around (marks : Punctuation) (operand : Node) (tokens : List Token) : List Token :=
  match operand with
  | .formula .. => marks.opening :: (tokens ++ [marks.closing])
  | _ => tokens

namespace Node

mutual

/-- The tokens of a tree. -/
def render (marks : Punctuation) : Node → List Token
  | leaf _ token => [token]
  | formula _ operator left right =>
    left.render marks ++ operator :: marks.around right (right.render marks)
  | assign operator target value => target.render marks ++ operator :: value.render marks
  | defineAlias operator key shown => operator :: (key.render marks ++ shown.render marks)
  | print operator operand => operator :: operand.render marks
  | printAlias operator operand => operator :: operand.render marks
  | program statements => renderAll marks statements

/-- The tokens of some statements, each with its end. -/
def renderAll (marks : Punctuation) : List Node → List Token
  | [] => []
  | statement :: rest =>
    statement.render marks ++ marks.hash :: marks.semicolon :: renderAll marks rest

end

end Node

namespace Grammar

/-- The tokens of a formula or a term and what they count, `extra` parentheses included. -/
structure Spells (phrase : Phrase) (tokens : List Token) (formula : Node) (extra : Nat) : Prop where
  prescribes : Prescribes phrase tokens formula
  terms : termCount (tokens.map Token.kind) = formula.leafCount + formula.groupCount + extra
  nesting : NestsWithin (formula.groupDepth + extra) (tokens.map Token.kind)

variable {marks : Punctuation}

/-- As a right operand, an operation is a term in its parentheses and a leaf is one as it is. -/
theorem Spells.around {tokens : List Token} {operand : Node} (h : Spells .formula tokens operand 0) :
    Spells .term (marks.around operand tokens) operand operand.parens := by
  obtain ⟨hprescribes, hterms, hnesting⟩ := h
  cases operand with
  | formula op operator left right =>
    have hkinds : (marks.opening :: (tokens ++ [marks.closing])).map Token.kind =
        .openParen :: (tokens.map Token.kind ++ [.closeParen]) := by
      simp [marks.opening_kind, marks.closing_kind]
    constructor
    · exact .group marks.opening_kind hprescribes marks.closing_kind
    · rw [Punctuation.around, hkinds, termCount_cons, termCount_append, hterms]
      rfl
    · rw [Punctuation.around, hkinds]
      exact hnesting.enclose
  | _ =>
    -- only an operation may be a formula without being a term
    cases hprescribes with
    | single hterm => exact ⟨hterm, hterms, hnesting⟩

/-- A leaf spells itself. -/
theorem spells_leaf {token : Token} {form : Leaf} (hform : form ≠ .emoji)
    (htoken : token.kind = form.kind) : Spells .formula [token] (.leaf form token) 0 := by
  constructor
  · exact .single (.leaf hform htoken)
  · rw [List.map_singleton, htoken]
    cases form <;> first | rfl | exact absurd rfl hform
  · intro read hread
    have hcount := hread.sublist.count_le Kind.openParen
    have hnone : ([token].map Token.kind).count .openParen = 0 := by
      rw [List.map_singleton, htoken]
      cases form <;> rfl
    omega

/-- An operation spells its left operand, its sign and its right operand. -/
theorem Spells.chain {before right : List Token} {operator : Token} {op : Arithmetic}
    {left operand : Node} (hleft : Spells .formula before left 0)
    (hoperator : operator.kind = op.kind) (hright : Spells .term right operand operand.parens) :
    Spells .formula (before ++ operator :: right) (.formula op operator left operand) 0 := by
  have hsign := exists_arithmetic_iff.mp ⟨op, rfl⟩
  have hbefore := count_parens_of_derives (derives_of_prescribes hleft.prescribes)
  have hkinds : (before ++ operator :: right).map Token.kind =
      before.map Token.kind ++ op.kind :: right.map Token.kind := by
    simp [hoperator]
  constructor
  · exact .chain hleft.prescribes hoperator hright.prescribes
  · have hcount : termCount (op.kind :: right.map Token.kind) = termCount (right.map Token.kind) := by
      cases op <;> rfl
    rw [hkinds, termCount_append, hcount, hleft.terms, hright.terms]
    simp only [Node.leafCount, Node.groupCount]
    omega
  · rw [hkinds]
    have hdeep : left.groupDepth + 0 ≤ (Node.formula op operator left operand).groupDepth + 0 := by
      simp only [Node.groupDepth]
      omega
    have hdeep' : operand.groupDepth + operand.parens ≤
        (Node.formula op operator left operand).groupDepth + 0 := by
      simp only [Node.groupDepth]
      omega
    exact (hleft.nesting.mono hdeep).chain hbefore hsign (hright.nesting.mono hdeep')

/-- The rendering of a formula counts its leaves and groups, and nests as deep as these. -/
theorem spells_render (marks : Punctuation) {formula : Node} (h : formula.IsFormula) :
    Spells .formula (formula.render marks) formula 0 := by
  induction h with
  | leaf hform hkind => exact spells_leaf hform hkind
  | formula hoperator _ _ hleft hright => exact hleft.chain hoperator hright.around

theorem Spells.withinLimits {tokens : List Token} {formula : Node}
    (h : Spells .formula tokens formula 0) (hlimits : formula.KeepsLimits) :
    WithinLimits (tokens.map Token.kind) where
  terms := h.terms ▸ hlimits.terms
  nesting := h.nesting.mono (Node.groupDepth_le_iff.mpr hlimits.nesting)

/-- The rendering of a statement is the statement, within the limits of its formula. -/
theorem prescribes_render_statement (marks : Punctuation) {statement : Node}
    (h : statement.IsStatement)
    (hlimits : ∀ formula, statement.formula? = some formula → formula.KeepsLimits) :
    Prescribes .statement (statement.render marks) statement ∧
      WithinLimits (formulaOf ((statement.render marks).map Token.kind)) := by
  cases h with
  | assign hname hoperator hvalue =>
    have hspells := spells_render marks hvalue
    refine ⟨.assign hname hoperator hspells.prescribes, ?_⟩
    have hwithin := hspells.withinLimits (hlimits _ rfl)
    simpa [Node.render, hname, hoperator, formulaOf] using hwithin
  | defineAlias hkeyword hkey hform hshown =>
    refine ⟨.defineAlias hkeyword hkey hform hshown, ?_⟩
    simpa [Node.render, hkeyword, formulaOf] using withinLimits_nil
  | print hoperator hoperand =>
    have hspells := spells_render marks hoperand
    refine ⟨.print hoperator hspells.prescribes, ?_⟩
    have hwithin := hspells.withinLimits (hlimits _ rfl)
    simpa [Node.render, hoperator, formulaOf] using hwithin
  | printAlias hoperator hoperand =>
    have hspells := spells_render marks hoperand
    refine ⟨.printAlias hoperator hspells.prescribes, ?_⟩
    have hwithin := hspells.withinLimits (hlimits _ rfl)
    simpa [Node.render, hoperator, formulaOf] using hwithin

/-- The rendering of statements is a program, within the limits of their formulas. -/
theorem prescribes_renderAll (marks : Punctuation) {statements : List Node}
    (h : ∀ statement ∈ statements, statement.IsStatement ∧
      ∀ formula, statement.formula? = some formula → formula.KeepsLimits) :
    Prescribes .program (Node.renderAll marks statements) (.program statements) ∧
      Fits ((Node.renderAll marks statements).map Token.kind) := by
  induction statements with
  | nil => exact ⟨.done, fits_nil⟩
  | cons statement rest ih =>
    obtain ⟨⟨hstatement, hlimits⟩, hrest⟩ := List.forall_mem_cons.mp h
    obtain ⟨hprescribes, hwithin⟩ := prescribes_render_statement marks hstatement hlimits
    obtain ⟨hprogram, hfits⟩ := ih hrest
    exact Reading.prescribes_fits_next hprescribes hwithin marks.hash_kind marks.semicolon_kind
      hprogram hfits

end Grammar

/-- A program is read back from its rendering. -/
theorem parse_render (marks : Punctuation) {program : Node} (h : program.IsProgram) :
    parse (program.render marks) = .ok program := by
  obtain ⟨statements, rfl, hstatements⟩ := h
  exact parse_eq_ok_iff.mpr (prescribes_renderAll marks hstatements)

/-- **What can be read.** A tree can be read from some tokens exactly if it is a program of
statements whose formulas keep to the limits, and then it is read back from its rendering, whatever
its marks are. -/
theorem exists_parse_iff_isProgram (node : Node) :
    ((∃ tokens, parse tokens = .ok node) ↔ node.IsProgram) ∧
      (node.IsProgram → ∀ marks, parse (node.render marks) = .ok node) := by
  refine ⟨⟨?_, ?_⟩, ?_⟩
  · rintro ⟨tokens, h⟩
    exact isProgram_of_parse h
  · intro h
    exact ⟨node.render .plain, parse_render .plain h⟩
  · exact fun h marks => parse_render marks h

/-- The tree of `print a + b - (c - d)#;`, which has one group. -/
def oneGroup : Node :=
  .program [.print ⟨.print, "print", ⟨0, 1⟩⟩
    (.formula .sub ⟨.minus, "-", ⟨12, 1⟩⟩
      (.formula .add ⟨.plus, "+", ⟨8, 1⟩⟩ (.leaf .word ⟨.word, "a", ⟨6, 1⟩⟩)
        (.leaf .word ⟨.word, "b", ⟨10, 1⟩⟩))
      (.formula .sub ⟨.minus, "-", ⟨17, 1⟩⟩ (.leaf .word ⟨.word, "c", ⟨15, 1⟩⟩)
        (.leaf .word ⟨.word, "d", ⟨19, 1⟩⟩)))]

theorem parse_render_oneGroup :
    oneGroup.IsProgram ∧
      (oneGroup.render .plain).map Token.text =
        ["print", "a", "+", "b", "-", "(", "c", "-", "d", ")", "#", ";"] ∧
      parse (oneGroup.render .plain) = .ok oneGroup := by
  have hprogram : oneGroup.IsProgram := by
    refine ⟨_, rfl, List.forall_mem_singleton.mpr ⟨?_, ?_⟩⟩
    · exact .print rfl (.formula rfl (.formula rfl (.leaf (by decide) rfl) (.leaf (by decide) rfl))
        (.formula rfl (.leaf (by decide) rfl) (.leaf (by decide) rfl)))
    · rintro _ ⟨⟩
      exact ⟨by decide, Node.groupDepth_le_iff.mp (by decide)⟩
  exact ⟨hprogram, rfl, (exists_parse_iff_isProgram oneGroup).2 hprogram .plain⟩

end EmojiScript
