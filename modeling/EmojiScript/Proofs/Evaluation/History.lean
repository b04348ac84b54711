import EmojiScript.Proofs.Evaluation.Faults

namespace EmojiScript

/-!
# What a run remembers

Behind statements that succeeded, a table holds under a name what the latest of them gave to it, and
under any other name what it held at the start.  The two tables are apart: assignments give values to
variables, which formulas read, and `ejkey` gives texts to keys, which `ejprint` shows.

* `Node.Latest` — what statements gave to a name last.
* `Node.Stored`, `Node.Shown` — that for variables and for keys.
* `Node.IsStatement.context_cases` — what a statement does to the two tables.
* `Node.Succeed.latest` — statements that succeed leave what they gave last.
* `Node.Recalls` — what a statement reads and shows.
* `run_recalls_latest` — programs of a source.
-/

/-- The text that a leaf gives to an alias: a text stands for what is between its quotes, an emoji or
a name for itself. -/
def Leaf.shown (form : Leaf) (token : Token) : String :=
  match form with
  | text => unquote token.text
  | _ => token.text

namespace Node

/-! ### What statements give -/

/-- The variable that a statement assigns to, if it does. -/
def assigned? : Node → Option String
  | assign _ (leaf .word name) _ => some name.text
  | _ => none

/-- The key that a statement gives an alias to, if it does. -/
def aliased? : Node → Option String
  | defineAlias _ (leaf .word key) _ => some key.text
  | _ => none

/-- The text of the alias that a statement gives, if it does. -/
def givenText? : Node → Option String
  | defineAlias _ _ (leaf form shown) => some (form.shown shown)
  | _ => none

variable {σ α : Type}

/-- A statement gives something to a name, so that this is what stands there, or leaves what stands
there.  `get` looks that up on a machine. -/
def GivesOrKeeps (names : Node → Option String) (gives : Machine σ → Node → α → Prop)
    (get : Machine σ → Option α) (name : String) (statement : Node) (before after : Machine σ) :
    Prop :=
  (∃ a, names statement = some name ∧ gives before statement a ∧ get after = some a) ∨
    names statement ≠ some name ∧ get after = get before

variable {names : Node → Option String} {gives : Machine σ → Node → α → Prop}
  {get : Machine σ → Option α} {name : String} {statement : Node} {before after : Machine σ}

/-- A statement that changes one entry gives something to the name of this one, and to no other. -/
theorem givesOrKeeps_of_entry {target : String} {a : α} (hnames : names statement = some target)
    (hgives : gives before statement a)
    (hget : get after = if target = name then some a else get before) :
    GivesOrKeeps names gives get name statement before after := by
  by_cases htarget : target = name
  · rw [if_pos htarget] at hget
    exact .inl ⟨a, htarget ▸ hnames, hgives, hget⟩
  · rw [if_neg htarget] at hget
    refine .inr ⟨?_, hget⟩
    intro hname
    exact htarget (Option.some.inj (hnames.symm.trans hname))

/-- A statement that names nothing leaves what stands anywhere. -/
theorem givesOrKeeps_of_none (hnames : names statement = none) (hget : get after = get before) :
    GivesOrKeeps names gives get name statement before after := by
  refine .inr ⟨?_, hget⟩
  rw [hnames]
  exact (Option.some_ne_none name).symm

/-! ### What statements gave last -/

variable [Sink σ]

/-- What statements that ran from a machine gave to a name last, or what stood there at the start.
`names` says to what a statement gives something, and `gives` what that is on the machine on which
the statement runs. -/
inductive Latest (names : Node → Option String) (gives : Machine σ → Node → α → Prop)
    (statements : List Node) (machine : Machine σ) (name : String) (start : Option α) :
    Option α → Prop where
  /-- One of the statements gives something to the name, and none behind it does. -/
  | given {earlier later : List Node} {statement : Node} {before : Machine σ} {a : α} :
      statements = earlier ++ statement :: later → Succeed earlier machine before →
      names statement = some name → gives before statement a →
      (∀ other ∈ later, names other ≠ some name) →
      Latest names gives statements machine name start (some a)
  /-- No statement gives anything to the name. -/
  | start : (∀ other ∈ statements, names other ≠ some name) →
      Latest names gives statements machine name start start

/-- The value that a variable has behind statements: that of the formula of the latest assignment to
it, or the one it had at the start. -/
def Stored (statements : List Node) (machine : Machine σ) (name : String) : Option Value → Prop :=
  Latest assigned?
    (fun before statement value => ∃ formula, statement.formula? = some formula ∧
      formula.outcome before.context.scope = .ok value)
    statements machine name (machine.context.scope.get? name)

/-- The text that a key has behind statements: that of the latest alias that it was given, or the one
it had at the start. -/
def Shown (statements : List Node) (machine : Machine σ) (key : String) : Option String → Prop :=
  Latest aliased? (fun _ statement text => statement.givenText? = some text)
    statements machine key (machine.context.aliases.get? key)

variable {statements : List Node} {machine last : Machine σ} {start value? : Option α}

/-- A name has something behind statements if it had something before or one of them gives it. -/
theorem Latest.isSome_iff (h : Latest names gives statements machine name start value?) :
    value?.isSome ↔ start.isSome ∨ name ∈ statements.filterMap names := by
  rw [List.mem_filterMap]
  cases h with
  | @given earlier later statement before a hsplit _ hnames _ _ =>
    have hmem : statement ∈ statements := by simp [hsplit]
    exact ⟨fun _ => .inr ⟨statement, hmem, hnames⟩, fun _ => rfl⟩
  | start hnone =>
    constructor
    · exact .inl
    · rintro (hstart | ⟨statement, hmem, hnames⟩)
      · exact hstart
      · exact absurd hnames (hnone statement hmem)

/-- **Statements leave what they gave last.** If every statement that succeeds either gives something
to the name or leaves what is there, then so do all of them together. -/
theorem Succeed.latest (get : Machine σ → Option α)
    (hstep : ∀ statement ∈ statements, ∀ before after result,
      statement.evaluate.runOn before = (.ok result, after) →
      GivesOrKeeps names gives get name statement before after)
    (h : Succeed statements machine last) :
    Latest names gives statements machine name (get machine) (get last) := by
  induction h with
  | nil machine => exact .start (by simp)
  | @cons statement rest machine next last _ hrun _ ih =>
    obtain ⟨hfirst, hrest⟩ := List.forall_mem_cons.mp hstep
    have hlatest := ih hrest
    generalize get last = result at hlatest ⊢
    cases hlatest with
    | given hsplit hearlier hnames hgives hnone =>
      exact .given (by rw [hsplit, List.cons_append]) (.cons hrun hearlier) hnames hgives hnone
    | start hnone =>
      -- nothing behind the first statement gives anything to the name
      rcases hfirst machine next _ hrun with ⟨a, hnames, hgives, hget⟩ | ⟨hnames, hget⟩
      · rw [hget]
        exact .given rfl (.nil machine) hnames hgives hnone
      · rw [hget]
        exact .start (List.forall_mem_cons.mpr ⟨hnames, hnone⟩)

/-! ### What statements do to the tables -/

theorem nameIn_leaf_of_ne_number {form : Leaf} (h : form ≠ .number) (token : Token) (scope : Scope) :
    (leaf form token).nameIn scope = .ok (form.shown token) := by
  cases form with
  | number => exact absurd rfl h
  | _ => rfl

/-- A statement that succeeds stores the value of its formula, or gives its alias, or leaves both
tables. -/
theorem IsStatement.context_cases {result : Option Value} (h : statement.IsStatement)
    (hrun : statement.evaluate.runOn before = (.ok result, after)) :
    (∃ operator name formula value, statement = .assign operator (.leaf .word name) formula ∧
      formula.outcome before.context.scope = .ok value ∧
      after.context = before.context.define name.text value) ∨
    (∃ keyword key form shown,
      statement = .defineAlias keyword (.leaf .word key) (.leaf form shown) ∧
      after.context = before.context.defineAlias key.text (form.shown shown)) ∨
    statement.assigned? = none ∧ statement.aliased? = none ∧ after.context = before.context := by
  rcases h.evaluate_cases before with
    ⟨fault, _, hfails⟩ | ⟨effect, after', heffect, hcontext, hok | ⟨reason, hrefused⟩⟩
  · rw [hrun] at hfails
    cases hfails
  · obtain ⟨_, rfl⟩ := Prod.mk.inj (hok.symm.trans hrun)
    rw [hcontext]
    cases h with
    | @assign name operator formula =>
      obtain ⟨value, houtcome, rfl⟩ := exists_of_map_ok heffect
      exact .inl ⟨operator, name, formula, value, rfl, houtcome, rfl⟩
    | @defineAlias keyword key shown form _ _ hform =>
      simp only [Node.effect, nameIn_leaf_of_ne_number hform] at heffect
      obtain rfl := Except.ok.inj heffect
      exact .inr (.inl ⟨keyword, key, form, shown, rfl, rfl⟩)
    | print =>
      obtain ⟨value, _, rfl⟩ := exists_of_map_ok heffect
      exact .inr (.inr ⟨rfl, rfl, rfl⟩)
    | printAlias =>
      obtain ⟨key, _, rfl⟩ := exists_of_map_ok heffect
      exact .inr (.inr ⟨rfl, rfl, rfl⟩)
  · rw [hrun] at hrefused
    cases hrefused

/-- **Variables hold what was stored last.** -/
theorem Succeed.stored (hstatements : ∀ statement ∈ statements, statement.IsStatement)
    (h : Succeed statements machine last) (name : String) :
    Stored statements machine name (last.context.scope.get? name) := by
  refine h.latest (fun machine => machine.context.scope.get? name) ?_
  intro statement hmem before after result hrun
  rcases (hstatements statement hmem).context_cases hrun with
    ⟨operator, target, formula, value, rfl, houtcome, hcontext⟩ |
      ⟨keyword, key, form, shown, rfl, hcontext⟩ | ⟨hassigned, _, hcontext⟩
  · refine givesOrKeeps_of_entry rfl ⟨formula, rfl, houtcome⟩ ?_
    rw [hcontext]
    exact Scope.get?_define _ _ _ _
  · -- aliases are no variables
    refine givesOrKeeps_of_none rfl ?_
    rw [hcontext]
    rfl
  · exact givesOrKeeps_of_none hassigned (by rw [hcontext])

/-- **Keys hold what they were given last.** -/
theorem Succeed.shown (hstatements : ∀ statement ∈ statements, statement.IsStatement)
    (h : Succeed statements machine last) (key : String) :
    Shown statements machine key (last.context.aliases.get? key) := by
  refine h.latest (fun machine => machine.context.aliases.get? key) ?_
  intro statement hmem before after result hrun
  rcases (hstatements statement hmem).context_cases hrun with
    ⟨operator, target, formula, value, rfl, _, hcontext⟩ |
      ⟨keyword, target, form, shown, rfl, hcontext⟩ | ⟨_, haliased, hcontext⟩
  · -- variables are no keys
    refine givesOrKeeps_of_none rfl ?_
    rw [hcontext]
    rfl
  · refine givesOrKeeps_of_entry rfl rfl ?_
    rw [hcontext]
    exact AliasTable.get?_define _ _ _ _
  · exact givesOrKeeps_of_none haliased (by rw [hcontext])

/-! ### What statements read and show -/

/-- A statement writes the line of a key: the text that the key was given last, or the key itself if
it has none. -/
def WritesKey (earlier : List Node) (statement : Node) (machine before : Machine σ) (key : String) :
    Prop :=
  ∃ text?, Shown earlier machine key text? ∧
    statement.evaluate.runOn before =
      (do Eval.writeLine (text?.getD key); return none : Eval σ _).runOn before

/-- A statement that is reached behind others reads and shows what these gave last. -/
structure Recalls (earlier : List Node) (statement : Node) (machine before : Machine σ) :
    Prop where
  /-- All parts of a formula are evaluated on the machine that the statement finds. -/
  evaluates : ∀ formula, statement.formula? = some formula → ∀ part ∈ formula.steps,
    part.value.runOn before = (part.outcome before.context.scope, before)
  /-- A variable has the value that was stored last, or the read fails. -/
  reads : ∀ formula, statement.formula? = some formula → ∀ name, leaf .word name ∈ formula.steps →
    ∃ value?, Stored earlier machine name.text value? ∧
      (leaf .word name).value.runOn before =
        (value?.elim (.error (.undefinedVariable name.text)) .ok, before)
  /-- A name is its own key, whatever value the variable has. -/
  showsName : ∀ operator name, statement = .printAlias operator (leaf .word name) →
    WritesKey earlier statement machine before name.text
  /-- Any other formula has the text of its value as its key. -/
  showsValue : ∀ operator operand value, statement = .printAlias operator operand →
    (∀ name, operand ≠ leaf .word name) → operand.value.runOn before = (.ok value, before) →
    WritesKey earlier statement machine before value.toText

/-- The line of `ejprint` is that of its key. -/
theorem Succeed.writesKey {earlier : List Node} {operator : Token} {operand : Node} {key : String}
    (hearlier : ∀ statement ∈ earlier, statement.IsStatement)
    (hstatement : (printAlias operator operand).IsStatement) (h : Succeed earlier machine before)
    (hkey : operand.nameIn before.context.scope = .ok key) :
    WritesKey earlier (printAlias operator operand) machine before key := by
  refine ⟨_, h.shown hearlier key, ?_⟩
  rw [hstatement.runOn_evaluate, effect, hkey]
  rfl

/-- Every statement that is reached recalls what was given last. -/
theorem Succeed.recalls {earlier : List Node}
    (hearlier : ∀ statement ∈ earlier, statement.IsStatement) (hstatement : statement.IsStatement)
    (h : Succeed earlier machine before) : Recalls earlier statement machine before where
  evaluates := by
    intro formula hformula part hpart
    exact ((hstatement.isFormula hformula).of_mem_steps hpart).runOn_value before
  reads := by
    intro formula hformula name hname
    refine ⟨_, h.stored hearlier name.text, ?_⟩
    rw [((hstatement.isFormula hformula).of_mem_steps hname).runOn_value, outcome, Leaf.outcome]
    cases before.context.scope.get? name.text <;> rfl
  showsName := by
    rintro operator name rfl
    exact h.writesKey hearlier hstatement rfl
  showsValue := by
    rintro operator operand value rfl hother hvalue
    have houtcome : operand.outcome before.context.scope = .ok value := by
      rw [(hstatement.isFormula rfl).runOn_value] at hvalue
      exact congrArg Prod.fst hvalue
    refine h.writesKey hearlier hstatement ?_
    rw [nameIn_of_ne_word hother, houtcome]
    rfl

end Node

/-! ### Tables behind a run -/

/-- A key has an alias behind definitions if it had one before or one of them names it. -/
theorem AliasTable.isSome_get?_foldl_define (aliases : AliasTable)
    (definitions : List (String × String)) (key : String) :
    ((definitions.foldl (fun aliases (key, text) => aliases.define key text) aliases).get?
        key).isSome ↔
      (aliases.get? key).isSome ∨ key ∈ definitions.map Prod.fst := by
  induction definitions generalizing aliases with
  | nil => simp
  | cons first rest ih =>
    obtain ⟨named, text⟩ := first
    rw [List.foldl_cons, ih, get?_define, List.map_cons, List.mem_cons]
    by_cases hkey : named = key
    · simp [hkey]
    · simp [hkey, Ne.symm hkey]

/-- A key has an alias at the start if it is one of the defaults. -/
theorem AliasTable.isSome_get?_default (key : String) :
    (AliasTable.default.get? key).isSome ↔ key ∈ defaults.map Prod.fst := by
  have hempty : (AliasTable.get? ⟨∅⟩ key).isSome = false := by simp [get?]
  rw [AliasTable.default, isSome_get?_foldl_define, hempty]
  simp

/-- **Runs remember what was given last.** Take a program of a source, on any machine.  A statement
that is reached reads the values and shows the texts that the statements before it gave last, to
variables and to keys.  A run from a fresh context that succeeds leaves values of the variables that
are assigned to, and aliases of the default keys and of those that `ejkey` names. -/
theorem run_recalls_latest {σ : Type} [Sink σ] {source : String} {program : Node}
    (h : compile source = .ok program) :
    ∃ statements, program = .program statements ∧
      (∀ (machine before : Machine σ) earlier statement later,
        statements = earlier ++ statement :: later → Node.Succeed earlier machine before →
          Node.Recalls earlier statement machine before) ∧
      ∀ (sink : σ) done, program.run.runOn { sink } = (.ok (), done) →
        (∀ name, done.context.scope.contains name ↔
          name ∈ statements.filterMap Node.assigned?) ∧
        ∀ key, (done.context.aliases.get? key).isSome ↔
          key ∈ AliasTable.defaults.map Prod.fst ∨ key ∈ statements.filterMap Node.aliased? := by
  obtain ⟨statements, rfl, hread⟩ := exists_statements_of_compile h
  have hstatements : ∀ statement ∈ statements, statement.IsStatement :=
    fun statement hmem => (hread statement hmem).1
  refine ⟨statements, rfl, ?_, ?_⟩
  · rintro machine before earlier statement later rfl hearlier
    exact hearlier.recalls (fun s hs => hstatements s (List.mem_append_left _ hs))
      (hstatements statement (by simp))
  · intro sink done hrun
    obtain ⟨last, hlast, hcontext⟩ := Node.exists_succeed_of_runOn_run hrun
    rw [hcontext]
    refine ⟨?_, ?_⟩
    · intro name
      rw [Scope.contains_eq_isSome_get?, (hlast.stored hstatements name).isSome_iff]
      simp
    · intro key
      rw [(hlast.shown hstatements key).isSome_iff, ← AliasTable.isSome_get?_default]

/-- The statements of `ejkey x love#;x = "1"#;`. -/
def giveAndAssign : List Node :=
  [.defineAlias ⟨.ejkey, "ejkey", ⟨0, 1⟩⟩ (.leaf .word ⟨.word, "x", ⟨6, 1⟩⟩)
     (.leaf .word ⟨.word, "love", ⟨8, 1⟩⟩),
   .assign ⟨.equals, "=", ⟨16, 1⟩⟩ (.leaf .word ⟨.word, "x", ⟨14, 1⟩⟩)
     (.leaf .text ⟨.text, "\"1\"", ⟨18, 1⟩⟩)]

/-- The statement `ejprint x#;` behind these. -/
def showGiven : Node := .printAlias ⟨.ejprint, "ejprint", ⟨23, 1⟩⟩ (.leaf .word ⟨.word, "x", ⟨31, 1⟩⟩)

/-- The name `love` is shown, and neither its own alias nor the value of `x`. -/
theorem run_recalls_latest_showGiven :
    compile "ejkey x love#;x = \"1\"#;ejprint x#;" = .ok (.program (giveAndAssign ++ [showGiven])) ∧
      ∃ before, Node.Succeed giveAndAssign ({ sink := {} } : Machine Buffer) before ∧
        Node.Recalls giveAndAssign showGiven { sink := {} } before ∧
        showGiven.evaluate.runOn before =
          (do Eval.writeLine "love"; return none : Eval Buffer _).runOn before := by
  have hcollect : (Scanner.ofString "ejkey x love#;x = \"1\"#;ejprint x#;").collect =
      ([⟨.ejkey, "ejkey", ⟨0, 1⟩⟩, ⟨.word, "x", ⟨6, 1⟩⟩, ⟨.word, "love", ⟨8, 1⟩⟩,
        ⟨.hash, "#", ⟨12, 1⟩⟩, ⟨.semicolon, ";", ⟨13, 1⟩⟩, ⟨.word, "x", ⟨14, 1⟩⟩,
        ⟨.equals, "=", ⟨16, 1⟩⟩, ⟨.text, "\"1\"", ⟨18, 1⟩⟩, ⟨.hash, "#", ⟨21, 1⟩⟩,
        ⟨.semicolon, ";", ⟨22, 1⟩⟩, ⟨.ejprint, "ejprint", ⟨23, 1⟩⟩, ⟨.word, "x", ⟨31, 1⟩⟩,
        ⟨.hash, "#", ⟨32, 1⟩⟩, ⟨.semicolon, ";", ⟨33, 1⟩⟩], none) := by decide +kernel
  have hcompile : compile "ejkey x love#;x = \"1\"#;ejprint x#;" =
      .ok (.program (giveAndAssign ++ [showGiven])) := by
    rw [compile_of_tokenize (tokenize_of_collect hcollect)]
    rfl
  obtain ⟨statements, hprogram, hrecalls, _⟩ := run_recalls_latest (σ := Buffer) hcompile
  obtain rfl := Node.program.inj hprogram
  have hearlier : Node.Succeed giveAndAssign ({ sink := {} } : Machine Buffer) _ :=
    .cons rfl (.cons rfl (.nil _))
  exact ⟨hcompile, _, hearlier, hrecalls _ _ _ _ _ rfl hearlier, rfl⟩

end EmojiScript
