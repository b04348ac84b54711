import EmojiScript.Proofs.Evaluation.History
import EmojiScript.Proofs.Evaluation.Journal

namespace EmojiScript

/-!
# Statements in either order

An assignment and an alias definition do one thing to the context and write nothing.  What an
assignment does depends on the variables that its formula reads, and on nothing else; what an alias
definition does depends on nothing at all.  So two such statements may change places if they change
different entries and neither stores a variable that the other reads.

* `Node.Reads`, `Node.outcome_congr` — a formula depends on the variables that it reads.
* `Node.Independent` — two statements that may change places.
* `Node.Does` — the one thing that an assignment or an alias definition does.
* `Node.Independent.does`, `Node.Independent.act_comm` — what one of two such statements does is the
  same behind the other, and the two things may be done in either order.
* `Node.Independent.succeed_swap` — the two statements, one behind the other.
* `independent_statements_commute` — statements that were read from tokens, alone and inside a
  program.
-/

/-! ### Entries made in either order -/

theorem Scope.define_comm {name other : String} (h : name ≠ other) (scope : Scope)
    (value otherValue : Value) :
    (scope.define name value).define other otherValue =
      (scope.define other otherValue).define name value := by
  refine Scope.ext fun looked => ?_
  simp only [Scope.get?_define]
  by_cases hother : other = looked
  · have hname : name ≠ looked := fun hname => h (hname.trans hother.symm)
    rw [if_pos hother, if_neg hname, if_pos hother]
  · rw [if_neg hother, if_neg hother]

theorem AliasTable.define_comm {key other : String} (h : key ≠ other) (aliases : AliasTable)
    (text otherText : String) :
    (aliases.define key text).define other otherText =
      (aliases.define other otherText).define key text := by
  refine AliasTable.ext fun looked => ?_
  simp only [AliasTable.get?_define]
  by_cases hother : other = looked
  · have hkey : key ≠ looked := fun hkey => h (hkey.trans hother.symm)
    rw [if_pos hother, if_neg hkey, if_pos hother]
  · rw [if_neg hother, if_neg hother]

namespace Node

/-! ### What a formula depends on -/

/-- A formula reads this variable. -/
def Reads (formula : Node) (name : String) : Prop :=
  ∃ token, leaf .word token ∈ formula.steps ∧ token.text = name

variable {scope other : Scope}

/-- **Formulas depend on what they read.** In two scopes that agree on the variables that it reads, a
formula comes to the same value or fails in the same way. -/
theorem outcome_congr {node : Node}
    (h : ∀ name, node.Reads name → scope.get? name = other.get? name) :
    node.outcome scope = node.outcome other := by
  induction node with
  | leaf form token =>
    cases form with
    | word =>
      have hget := h token.text ⟨token, List.mem_singleton_self _, rfl⟩
      simp only [outcome, Leaf.outcome, hget]
    | _ => rfl
  | formula op operator left right ihleft ihright =>
    have hleft : left.outcome scope = left.outcome other := by
      refine ihleft ?_
      rintro name ⟨token, hmem, htext⟩
      exact h name ⟨token, mem_steps_trans (left_mem_steps op operator left right) hmem, htext⟩
    have hright : right.outcome scope = right.outcome other := by
      refine ihright ?_
      rintro name ⟨token, hmem, htext⟩
      exact h name ⟨token, mem_steps_trans (right_mem_steps op operator left right) hmem, htext⟩
    rw [outcome, outcome, hleft, hright]
  | _ => rfl

/-- A formula comes to the same value behind a variable that it does not read. -/
theorem outcome_define {formula : Node} {name : String} (h : ¬ formula.Reads name) (scope : Scope)
    (value : Value) : formula.outcome (scope.define name value) = formula.outcome scope := by
  refine outcome_congr ?_
  intro read hread
  have hne : name ≠ read := fun hname => h (hname ▸ hread)
  rw [Scope.get?_define, if_neg hne]

/-! ### Statements that may change places -/

/-- Two statements that write nothing and do not get in each other's way: assignments to different
variables, neither of which the other one reads, alias definitions of different keys, or one of
either. -/
inductive Independent : Node → Node → Prop where
  | assignments {operator operator' name name' : Token} {formula formula' : Node} :
      name.text ≠ name'.text → ¬ formula'.Reads name.text → ¬ formula.Reads name'.text →
      Independent (assign operator (leaf .word name) formula)
        (assign operator' (leaf .word name') formula')
  | assignmentAlias {operator keyword : Token} {target formula key shown : Node} :
      Independent (assign operator target formula) (defineAlias keyword key shown)
  | aliasAssignment {operator keyword : Token} {target formula key shown : Node} :
      Independent (defineAlias keyword key shown) (assign operator target formula)
  | aliases {keyword keyword' key key' : Token} {shown shown' : Node} : key.text ≠ key'.text →
      Independent (defineAlias keyword (leaf .word key) shown)
        (defineAlias keyword' (leaf .word key') shown')

theorem Independent.symm {first second : Node} (h : first.Independent second) :
    second.Independent first := by
  cases h with
  | assignments hne hreads hreads' => exact .assignments hne.symm hreads' hreads
  | assignmentAlias => exact .aliasAssignment
  | aliasAssignment => exact .assignmentAlias
  | aliases hne => exact .aliases hne.symm

/-- Where a statement is an assignment or an alias definition, it does this in a scope. -/
inductive Does (scope : Scope) : Node → Action → Prop where
  | assign {operator name : Token} {formula : Node} {value : Value} :
      formula.outcome scope = .ok value →
      Does scope (assign operator (leaf .word name) formula) (.define name.text value)
  | defineAlias {keyword key shown : Token} {form : Leaf} : form ≠ .number →
      Does scope (defineAlias keyword (leaf .word key) (leaf form shown))
        (.defineAlias key.text (form.shown shown))

variable {first second : Node} {action otherAction : Action} {context : Context}

/-- **Behind the other one** of two independent statements, a statement does the same. -/
theorem Independent.does (h : first.Independent second) (hfirst : Does context.scope first action) :
    Does (context.act action).scope second otherAction ↔ Does context.scope second otherAction := by
  cases h with
  | assignments _ hreads _ =>
    cases hfirst with
    | assign =>
      -- the formula of the second does not read what the first stores
      have hsame := outcome_define hreads context.scope
      constructor
      · rintro ⟨houtcome⟩
        exact .assign ((hsame _).symm.trans houtcome)
      · rintro ⟨houtcome⟩
        exact .assign ((hsame _).trans houtcome)
  | assignmentAlias =>
    constructor
    · rintro ⟨⟩
      exact .defineAlias ‹_›
    · rintro ⟨⟩
      exact .defineAlias ‹_›
  | aliasAssignment =>
    -- an alias is nothing that a formula reads
    cases hfirst
    exact Iff.rfl
  | aliases =>
    cases hfirst
    exact Iff.rfl

/-- **What independent statements do** may be done in either order. -/
theorem Independent.act_comm (h : first.Independent second)
    (hfirst : Does context.scope first action) (hsecond : Does context.scope second otherAction) :
    (context.act action).act otherAction = (context.act otherAction).act action := by
  cases h with
  | assignments hne _ _ =>
    cases hfirst
    cases hsecond
    exact congrArg (Context.mk · context.aliases) (Scope.define_comm hne context.scope _ _)
  | assignmentAlias =>
    -- the two entries are in different tables
    cases hfirst
    cases hsecond
    rfl
  | aliasAssignment =>
    cases hfirst
    cases hsecond
    rfl
  | aliases hne =>
    cases hfirst
    cases hsecond
    exact congrArg (Context.mk context.scope) (AliasTable.define_comm hne context.aliases _ _)

variable {σ : Type} [Sink σ] {statement : Node} {machine after done last : Machine σ}

/-- A statement does its one thing to the machine. -/
theorem IsStatement.runOn_of_does (h : statement.IsStatement)
    (hdoes : Does machine.context.scope statement action) :
    ∃ value?, statement.evaluate.runOn machine =
      (.ok value?, { machine with context := machine.context.act action }) := by
  rw [h.runOn_evaluate]
  cases hdoes with
  | @assign _ _ _ value houtcome =>
    simp only [effect, houtcome]
    exact ⟨some value, rfl⟩
  | defineAlias hform =>
    simp only [effect, nameIn_leaf_of_ne_number hform]
    exact ⟨none, rfl⟩

/-- The first of two independent statements succeeds by doing its one thing. -/
theorem Independent.exists_does {value? : Option Value} (h : first.Independent second)
    (hfirst : first.IsStatement) (hrun : first.evaluate.runOn machine = (.ok value?, after)) :
    ∃ action, Does machine.context.scope first action ∧
      after = { machine with context := machine.context.act action } := by
  have hdoes : ∃ action, Does machine.context.scope first action := by
    rcases hfirst.context_cases hrun with
      ⟨operator, name, formula, value, rfl, houtcome, _⟩ |
        ⟨keyword, key, form, shown, rfl, _⟩ | ⟨hassigned, haliased, _⟩
    · exact ⟨_, .assign houtcome⟩
    · cases hfirst with
      | defineAlias _ _ hform => exact ⟨_, .defineAlias hform⟩
    · -- nothing else may change places
      cases hfirst with
      | assign => cases hassigned
      | defineAlias => cases haliased
      | print => cases h
      | printAlias => cases h
  obtain ⟨action, hdoes⟩ := hdoes
  obtain ⟨_, hrun'⟩ := hfirst.runOn_of_does hdoes
  rw [hrun] at hrun'
  exact ⟨action, hdoes, congrArg Prod.snd hrun'⟩

/-- **Independent statements may change places.** -/
theorem Independent.succeed_swap (h : first.Independent second) (hfirst : first.IsStatement)
    (hsecond : second.IsStatement) (hsucceed : Succeed [first, second] machine done) :
    Succeed [second, first] machine done ∧ done.sink = machine.sink := by
  cases hsucceed with
  | cons hrun hrest =>
    cases hrest with
    | cons hrun' hnil =>
      cases hnil
      obtain ⟨action, hdoes, rfl⟩ := h.exists_does hfirst hrun
      obtain ⟨otherAction, hdoes', rfl⟩ := h.symm.exists_does hsecond hrun'
      -- the second statement finds what it reads in front of the first as well
      have hearly : Does machine.context.scope second otherAction := (h.does hdoes).mp hdoes'
      have hlate : Does (machine.context.act otherAction).scope first action :=
        (h.symm.does hearly).mpr hdoes
      obtain ⟨_, hrunSecond⟩ := hsecond.runOn_of_does hearly
      obtain ⟨_, hrunFirst⟩ := hfirst.runOn_of_does
        (show Does (Machine.mk (machine.context.act otherAction) machine.sink).context.scope first
          action from hlate)
      refine ⟨?_, rfl⟩
      rw [h.act_comm hdoes hearly]
      exact .cons hrunSecond (.cons hrunFirst (.nil _))

/-- Independent statements may change places anywhere among others. -/
theorem Independent.succeed_swap_among (h : first.Independent second) (hfirst : first.IsStatement)
    (hsecond : second.IsStatement) {earlier later : List Node}
    (hsucceed : Succeed (earlier ++ first :: second :: later) machine last) :
    Succeed (earlier ++ second :: first :: later) machine last := by
  obtain ⟨before, hearlier, hrest⟩ := succeed_append_iff.mp hsucceed
  have hrest : Succeed ([first, second] ++ later) before last := hrest
  obtain ⟨between, hboth, hlater⟩ := succeed_append_iff.mp hrest
  obtain ⟨hswapped, _⟩ := h.succeed_swap hfirst hsecond hboth
  have hrest' : Succeed ([second, first] ++ later) before last :=
    succeed_append_iff.mpr ⟨between, hswapped, hlater⟩
  exact succeed_append_iff.mpr ⟨before, hearlier, hrest'⟩

/-- A run that finishes leaves the same machine if two of its statements have changed places. -/
theorem Independent.run_swap (h : first.Independent second) (hfirst : first.IsStatement)
    (hsecond : second.IsStatement) {earlier later : List Node}
    (hrun : (program (earlier ++ first :: second :: later)).run.runOn machine = (.ok (), done)) :
    (program (earlier ++ second :: first :: later)).run.runOn machine = (.ok (), done) := by
  obtain ⟨last, hlast, _⟩ := exists_succeed_of_runOn_run hrun
  rw [hlast.runOn_run] at hrun
  rw [(h.succeed_swap_among hfirst hsecond hlast).runOn_run]
  exact hrun

end Node

/-- **Independent statements commute.** Take two neighbours in a program that was read from tokens:
assignments to different variables, neither of which the other reads, alias definitions of different
keys, or one of either.  On every machine, they succeed in one order if they do in the other, leave
the same context and write nothing.  So in any program that runs to its end they may change places,
and neither what it writes nor the context that it leaves is another. -/
theorem independent_statements_commute {tokens : List Token} {before after : List Node}
    {first second : Node}
    (hparse : parse tokens = .ok (.program (before ++ first :: second :: after)))
    (h : first.Independent second) {σ : Type} [Sink σ] (machine : Machine σ) :
    (∀ done, Node.Succeed [first, second] machine done ↔
      Node.Succeed [second, first] machine done) ∧
    (∀ done, Node.Succeed [first, second] machine done → done.sink = machine.sink) ∧
    ∀ earlier later done,
      (Node.program (earlier ++ first :: second :: later)).run.runOn machine = (.ok (), done) →
      (Node.program (earlier ++ second :: first :: later)).run.runOn machine = (.ok (), done) := by
  obtain ⟨_, ⟨⟩, hstatements⟩ := exists_statements_of_parse hparse
  have hfirst : first.IsStatement := hstatements first (by simp)
  have hsecond : second.IsStatement := hstatements second (by simp)
  refine ⟨?_, ?_, ?_⟩
  · intro done
    constructor
    · intro hsucceed
      exact (h.succeed_swap hfirst hsecond hsucceed).1
    · intro hsucceed
      exact (h.symm.succeed_swap hsecond hfirst hsucceed).1
  · intro done hsucceed
    exact (h.succeed_swap hfirst hsecond hsucceed).2
  · intro earlier later done hrun
    exact h.run_swap hfirst hsecond hrun

/-- The statement `x = z + z` of `x = z + z#;y = z#;`. -/
def storeTwice : Node :=
  .assign ⟨.equals, "=", ⟨2, 1⟩⟩ (.leaf .word ⟨.word, "x", ⟨0, 1⟩⟩)
    (.formula .add ⟨.plus, "+", ⟨6, 1⟩⟩ (.leaf .word ⟨.word, "z", ⟨4, 1⟩⟩)
      (.leaf .word ⟨.word, "z", ⟨8, 1⟩⟩))

/-- The statement `y = z` behind it. -/
def storeOnce : Node :=
  .assign ⟨.equals, "=", ⟨13, 1⟩⟩ (.leaf .word ⟨.word, "y", ⟨11, 1⟩⟩)
    (.leaf .word ⟨.word, "z", ⟨15, 1⟩⟩)

/-- The tokens of both. -/
def storeBothTokens : List Token :=
  [⟨.word, "x", ⟨0, 1⟩⟩, ⟨.equals, "=", ⟨2, 1⟩⟩, ⟨.word, "z", ⟨4, 1⟩⟩, ⟨.plus, "+", ⟨6, 1⟩⟩,
    ⟨.word, "z", ⟨8, 1⟩⟩, ⟨.hash, "#", ⟨9, 1⟩⟩, ⟨.semicolon, ";", ⟨10, 1⟩⟩,
    ⟨.word, "y", ⟨11, 1⟩⟩, ⟨.equals, "=", ⟨13, 1⟩⟩, ⟨.word, "z", ⟨15, 1⟩⟩,
    ⟨.hash, "#", ⟨16, 1⟩⟩, ⟨.semicolon, ";", ⟨17, 1⟩⟩]

/-- A machine on which `z` is a text. -/
def textMachine : Machine Buffer where
  context := Context.define {} "z" (.text "a")
  sink := {}

theorem independent_statements_commute_storeTwice :
    parse storeBothTokens = .ok (.program [storeTwice, storeOnce]) ∧
    storeTwice.Independent storeOnce ∧
    ∃ done, Node.Succeed [storeTwice, storeOnce] textMachine done ∧
      Node.Succeed [storeOnce, storeTwice] textMachine done ∧ done.sink = textMachine.sink ∧
      done.context.scope.get? "x" = some (.text "aa") ∧
      (Node.program [storeTwice, storeOnce]).run.runOn textMachine =
        (Node.program [storeOnce, storeTwice]).run.runOn textMachine := by
  have hparse : parse storeBothTokens = .ok (.program ([] ++ storeTwice :: storeOnce :: [])) := rfl
  have hindependent : storeTwice.Independent storeOnce := by
    refine .assignments (by decide) ?_ ?_
    · simp [Node.Reads, Node.steps]
    · simp [Node.Reads, Node.steps]
  have hsucceed : Node.Succeed [storeTwice, storeOnce] textMachine _ :=
    .cons rfl (.cons rfl (.nil _))
  obtain ⟨hswap, hsink, hprogram⟩ := independent_statements_commute hparse hindependent textMachine
  have hrun := hsucceed.runOn_run
  refine ⟨hparse, hindependent, _, hsucceed, (hswap _).mp hsucceed, hsink _ hsucceed, rfl, ?_⟩
  exact hrun.trans (hprogram [] [] _ hrun).symm

end EmojiScript
