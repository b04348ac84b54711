import EmojiScript.Proofs.Evaluation.Effects
import EmojiScript.Proofs.Evaluation.Formulas

namespace EmojiScript

/-!
# What an evaluation leaves alone

An evaluation stores values and gives aliases in place of what was there before, and removes nothing.
It stores under the names that assignments in its tree have as targets, wherever in the tree these
stand, and gives aliases to the keys of the definitions in it.  A key that is a name is that key; any
other key is computed, and can come to any text.  All other entries are left alone, and this holds of
an evaluation that stops halfway as well.

* `Node.parts` — the nodes of a tree.
* `Node.Assigns`, `Node.MayAlias` — the entries that a tree can change.
* `Context.Changes` — one context comes from another by changes of such entries.
* `Eval.Changes.bind` — sequences of evaluations change what their parts change.
* `Node.changes_evaluate` — every node changes what its tree can change, at most.
* `evaluate_leaves_alone` — every node, on every machine.
-/

namespace Node

/-! ### The nodes of a tree -/

mutual

/-- The nodes of a tree, from its root downwards. -/
def parts : Node → List Node
  | leaf form token => [leaf form token]
  | formula op operator left right => formula op operator left right :: (left.parts ++ right.parts)
  | assign operator target value => assign operator target value :: (target.parts ++ value.parts)
  | defineAlias operator key shown => defineAlias operator key shown :: (key.parts ++ shown.parts)
  | print operator operand => print operator operand :: operand.parts
  | printAlias operator operand => printAlias operator operand :: operand.parts
  | program statements => program statements :: partsAll statements

/-- The nodes of some trees, one tree behind the other. -/
def partsAll : List Node → List Node
  | [] => []
  | statement :: rest => statement.parts ++ partsAll rest

end

theorem self_mem_parts (node : Node) : node ∈ node.parts := by
  cases node <;> simp [parts]

theorem mem_partsAll {statements : List Node} {statement part : Node}
    (hstatement : statement ∈ statements) (h : part ∈ statement.parts) :
    part ∈ partsAll statements := by
  induction statements with
  | nil => cases hstatement
  | cons first rest ih =>
    rcases List.mem_cons.mp hstatement with rfl | hrest
    · exact List.mem_append_left _ h
    · exact List.mem_append_right _ (ih hrest)

/-- An assignment in the tree has this variable as its target. -/
def Assigns (node : Node) (name : String) : Prop :=
  ∃ operator target value, assign operator (leaf .word target) value ∈ node.parts ∧
    target.text = name

/-- An alias definition in the tree has this name as its key. -/
def Aliases (node : Node) (key : String) : Prop :=
  ∃ operator name shown, defineAlias operator (leaf .word name) shown ∈ node.parts ∧
    name.text = key

/-- The key of an alias definition can come to this text: a name comes to itself, and any other node
may come to anything. -/
def MayBeKey (node : Node) (key : String) : Prop := ∀ name, node = leaf .word name → name.text = key

/-- An alias definition in the tree may give this key its alias. -/
def MayAlias (node : Node) (key : String) : Prop :=
  ∃ operator stated shown, defineAlias operator stated shown ∈ node.parts ∧ stated.MayBeKey key

/-- No alias definition stands in the tree. -/
def AliasFree (node : Node) : Prop :=
  ∀ operator stated shown, defineAlias operator stated shown ∉ node.parts

/-- The keys of all alias definitions in the tree are names. -/
def KeysAreNames (node : Node) : Prop :=
  ∀ operator stated shown, defineAlias operator stated shown ∈ node.parts →
    ∃ name, stated = leaf .word name

/-- Where all keys are names, only these may get an alias. -/
theorem MayAlias.aliases {node : Node} {key : String} (h : node.MayAlias key)
    (hnames : node.KeysAreNames) : node.Aliases key := by
  obtain ⟨operator, stated, shown, hmem, hkey⟩ := h
  obtain ⟨name, rfl⟩ := hnames operator stated shown hmem
  exact ⟨operator, name, shown, hmem, hkey name rfl⟩

/-- What a tree can change is among these variables and these keys. -/
structure ChangesWithin (names keys : String → Prop) (node : Node) : Prop where
  assigns : ∀ name, node.Assigns name → names name
  mayAlias : ∀ key, node.MayAlias key → keys key

variable {names keys : String → Prop}

/-- A part of a tree changes what the tree can change. -/
theorem ChangesWithin.of_parts {node part : Node} (h : ChangesWithin names keys node)
    (hparts : ∀ inner ∈ part.parts, inner ∈ node.parts) : ChangesWithin names keys part where
  assigns := by
    rintro name ⟨operator, target, value, hmem, htarget⟩
    exact h.assigns name ⟨operator, target, value, hparts _ hmem, htarget⟩
  mayAlias := by
    rintro key ⟨operator, stated, shown, hmem, hkey⟩
    exact h.mayAlias key ⟨operator, stated, shown, hparts _ hmem, hkey⟩

end Node

/-! ### Changes of a context -/

/-- Entries of these variables and of these keys may have come or been overwritten.  Nothing was
removed, and nothing else has changed. -/
structure Context.Changes (names keys : String → Prop) (before after : Context) : Prop where
  scope_kept : ∀ name, (before.scope.get? name).isSome → (after.scope.get? name).isSome
  aliases_kept : ∀ key, (before.aliases.get? key).isSome → (after.aliases.get? key).isSome
  scope_eq : ∀ name, ¬ names name → after.scope.get? name = before.scope.get? name
  aliases_eq : ∀ key, ¬ keys key → after.aliases.get? key = before.aliases.get? key

namespace Context.Changes

variable {names keys : String → Prop} {before between after : Context}

theorem refl (context : Context) : context.Changes names keys context where
  scope_kept := fun _ h => h
  aliases_kept := fun _ h => h
  scope_eq := fun _ _ => rfl
  aliases_eq := fun _ _ => rfl

theorem trans (h : before.Changes names keys between) (h' : between.Changes names keys after) :
    before.Changes names keys after where
  scope_kept := fun name hname => h'.scope_kept name (h.scope_kept name hname)
  aliases_kept := fun key hkey => h'.aliases_kept key (h.aliases_kept key hkey)
  scope_eq := fun name hname => (h'.scope_eq name hname).trans (h.scope_eq name hname)
  aliases_eq := fun key hkey => (h'.aliases_eq key hkey).trans (h.aliases_eq key hkey)

theorem define {name : String} (hname : names name) (context : Context) (value : Value) :
    context.Changes names keys (context.define name value) where
  scope_kept := by
    intro other hother
    show ((context.scope.define name value).get? other).isSome
    rw [Scope.get?_define]
    split
    · rfl
    · exact hother
  aliases_kept := fun _ h => h
  scope_eq := by
    intro other hother
    have hne : name ≠ other := fun h => hother (h ▸ hname)
    show (context.scope.define name value).get? other = _
    rw [Scope.get?_define, if_neg hne]
  aliases_eq := fun _ _ => rfl

theorem defineAlias {key : String} (hkey : keys key) (context : Context) (text : String) :
    context.Changes names keys (context.defineAlias key text) where
  scope_kept := fun _ h => h
  aliases_kept := by
    intro other hother
    show ((context.aliases.define key text).get? other).isSome
    rw [AliasTable.get?_define]
    split
    · rfl
    · exact hother
  scope_eq := fun _ _ => rfl
  aliases_eq := by
    intro other hother
    have hne : key ≠ other := fun h => hother (h ▸ hkey)
    show (context.aliases.define key text).get? other = _
    rw [AliasTable.get?_define, if_neg hne]

end Context.Changes

/-! ### Changes by an evaluation -/

namespace Eval

variable {σ α β : Type} {names keys : String → Prop}

/-- Whether it fails or not, an evaluation changes these variables and keys at most. -/
def Changes (names keys : String → Prop) (eval : Eval σ α) : Prop :=
  ∀ machine : Machine σ, machine.context.Changes names keys (eval.runOn machine).2.context

theorem changes_pure (a : α) : Changes names keys (pure a : Eval σ α) :=
  fun machine => .refl machine.context

theorem changes_throw (fault : Fault) : Changes names keys (throw fault : Eval σ α) :=
  fun machine => .refl machine.context

theorem Writes.changes {eval : Eval σ α} (h : eval.Writes) : eval.Changes names keys := by
  intro machine
  rw [(h machine).1]
  exact .refl machine.context

theorem Changes.bind {eval : Eval σ α} {next : α → Eval σ β} (h : eval.Changes names keys)
    (hnext : ∀ a, (next a).Changes names keys) : (eval >>= next).Changes names keys := by
  intro machine
  have hbetween := h machine
  rcases runOn_bind_cases eval next machine with
    ⟨a, between, hrun, hbind⟩ | ⟨fault, after, hrun, hbind⟩
  · rw [hrun] at hbetween
    rw [hbind]
    exact hbetween.trans (hnext a between)
  · -- what was changed in front of a fault stays changed
    rw [hrun] at hbetween
    rw [hbind]
    exact hbetween

theorem Changes.map {eval : Eval σ α} (h : eval.Changes names keys) (f : α → β) :
    (f <$> eval).Changes names keys := by
  intro machine
  rw [runOn_map]
  exact h machine

end Eval

namespace Node

variable {σ : Type} {names keys : String → Prop}

theorem changes_demand (node : Node) {evaluation : Eval σ (Option Value)}
    (h : evaluation.Changes names keys) : (node.demand evaluation).Changes names keys := by
  refine h.bind ?_
  intro value?
  cases value? with
  | none => exact Eval.changes_throw _
  | some value => exact Eval.changes_pure value

theorem changes_aliasText (node : Node) {value : Eval σ Value} (h : value.Changes names keys) :
    (node.aliasText value).Changes names keys := by
  unfold aliasText
  split
  · exact Eval.changes_pure _
  · exact Eval.changes_pure _
  · exact h.map _

/-- What is done with a key has to be judged for the texts only that the key can come to. -/
theorem changes_keyOf {α : Type} (node : Node) {value : Eval σ Value} {next : String → Eval σ α}
    (h : value.Changes names keys)
    (hnext : ∀ key, node.MayBeKey key → (next key).Changes names keys) :
    (node.keyOf value >>= next).Changes names keys := by
  unfold keyOf
  split
  next name =>
    rw [pure_bind]
    refine hnext name.text ?_
    rintro _ ⟨⟩
    rfl
  next hother =>
    refine (h.map _).bind ?_
    intro key
    exact hnext key fun name hname => absurd hname (hother name)

/-- An assignment stores under its target or fails. -/
theorem changes_assignTo (target : Node) {value : Eval σ Value} (h : value.Changes names keys)
    (hnames : ∀ name, target = leaf .word name → names name.text) :
    (target.assignTo value).Changes names keys := by
  unfold assignTo
  split
  next name =>
    refine h.bind ?_
    intro value
    refine Eval.Changes.bind (fun machine => ?_) fun _ => Eval.changes_pure value
    exact .define (hnames name rfl) machine.context value
  next => exact Eval.changes_throw _

variable [Sink σ]

theorem changes_evaluateAll {statements : List Node}
    (h : ∀ statement ∈ statements, Eval.Changes names keys (statement.evaluate : Eval σ _)) :
    Eval.Changes names keys (evaluateAll statements : Eval σ Unit) := by
  induction statements with
  | nil => exact Eval.changes_pure ()
  | cons statement rest ih =>
    obtain ⟨hfirst, hrest⟩ := List.forall_mem_cons.mp h
    rw [evaluateAll_cons]
    exact hfirst.bind fun _ => ih hrest

/-- **Nodes change what is named in their trees**, at most. -/
theorem changes_evaluate {node : Node} (h : ChangesWithin names keys node) :
    Eval.Changes names keys (node.evaluate : Eval σ _) := by
  induction node with
  | leaf form token =>
    intro machine
    rw [evaluate_leaf, Eval.runOn_map, Leaf.runOn_evaluate]
    exact .refl machine.context
  | formula op operator left right ihleft ihright =>
    have hleft := ihleft (h.of_parts fun part hpart => by simp [parts, hpart])
    have hright := ihright (h.of_parts fun part hpart => by simp [parts, hpart])
    rw [evaluate_formula]
    refine Eval.Changes.map ?_ _
    refine (left.changes_demand hleft).bind fun a => ?_
    refine (right.changes_demand hright).bind fun b => ?_
    exact fun machine => .refl machine.context
  | assign operator target value _ ih =>
    have hvalue := ih (h.of_parts fun part hpart => by simp [parts, hpart])
    have hassign : (assign operator target value).evaluate (σ := σ) =
        some <$> target.assignTo value.value := rfl
    rw [hassign]
    refine (target.changes_assignTo (value.changes_demand hvalue) ?_).map _
    rintro name rfl
    exact h.assigns name.text ⟨operator, name, value, self_mem_parts _, rfl⟩
  | defineAlias operator key shown ihkey ihshown =>
    have hkey := ihkey (h.of_parts fun part hpart => by simp [parts, hpart])
    have hshown := ihshown (h.of_parts fun part hpart => by simp [parts, hpart])
    rw [evaluate_defineAlias]
    refine key.changes_keyOf (key.changes_demand hkey) fun text htext => ?_
    refine (shown.changes_aliasText (shown.changes_demand hshown)).bind fun given => ?_
    refine Eval.Changes.bind (fun machine => ?_) fun _ => Eval.changes_pure none
    exact .defineAlias (h.mayAlias text ⟨operator, key, shown, self_mem_parts _, htext⟩)
      machine.context given
  | print operator operand ih =>
    have hoperand := ih (h.of_parts fun part hpart => by simp [parts, hpart])
    rw [evaluate_print]
    refine (operand.changes_demand hoperand).bind fun value => ?_
    exact (Eval.writes_writeLine value.toText).changes.bind fun _ => Eval.changes_pure none
  | printAlias operator operand ih =>
    have hoperand := ih (h.of_parts fun part hpart => by simp [parts, hpart])
    rw [evaluate_printAlias]
    refine operand.changes_keyOf (operand.changes_demand hoperand) fun key _ => ?_
    refine Eval.Changes.bind (fun machine => .refl machine.context) fun shown => ?_
    exact (Eval.writes_writeLine shown).changes.bind fun _ => Eval.changes_pure none
  | program statements ih =>
    rw [evaluate_program]
    refine Eval.Changes.bind ?_ fun _ => Eval.changes_pure none
    refine changes_evaluateAll fun statement hmem => ih statement hmem ?_
    exact h.of_parts fun part hpart => List.mem_cons_of_mem _ (mem_partsAll hmem hpart)

end Node

/-- **Evaluation leaves alone what its tree does not name.** Take a tree, made by hand or not, and
evaluate it on any machine; it may succeed or fail.  No variable and no alias is removed.  A variable
that is no target of an assignment in the tree keeps its value.  The aliases stay as they are if the
tree has no alias definition; if the keys of all its definitions are names, every other key keeps its
alias. -/
theorem evaluate_leaves_alone {σ : Type} [Sink σ] {node : Node} {machine after : Machine σ}
    {result : Except Fault (Option Value)} (h : node.evaluate.runOn machine = (result, after)) :
    (∀ name, machine.context.scope.contains name → after.context.scope.contains name) ∧
    (∀ key, (machine.context.aliases.get? key).isSome → (after.context.aliases.get? key).isSome) ∧
    (∀ name, ¬ node.Assigns name →
      after.context.scope.get? name = machine.context.scope.get? name) ∧
    (node.AliasFree → after.context.aliases = machine.context.aliases) ∧
    (node.KeysAreNames → ∀ key, ¬ node.Aliases key →
      after.context.aliases.get? key = machine.context.aliases.get? key) := by
  have hwithin : Node.ChangesWithin node.Assigns node.MayAlias node := ⟨fun _ h => h, fun _ h => h⟩
  have hchanges := Node.changes_evaluate (σ := σ) hwithin machine
  rw [h] at hchanges
  refine ⟨?_, hchanges.aliases_kept, hchanges.scope_eq, ?_, ?_⟩
  · intro name hname
    rw [Scope.contains_eq_isSome_get?] at hname ⊢
    exact hchanges.scope_kept name hname
  · intro hfree
    refine AliasTable.ext fun key => hchanges.aliases_eq key ?_
    rintro ⟨operator, stated, shown, hmem, _⟩
    exact hfree operator stated shown hmem
  · intro hnames key hkey
    exact hchanges.aliases_eq key fun hmay => hkey (hmay.aliases hnames)

/-- The program of `ejkey cat "c"` and `print (y = 7) + x`, made by hand: its second statement stores
a value inside an operand and then fails. -/
def storeThenMissing : Node :=
  .program
    [.defineAlias ⟨.ejkey, "ejkey", ⟨0, 1⟩⟩ (.leaf .word ⟨.word, "cat", ⟨6, 1⟩⟩)
      (.leaf .text ⟨.text, "\"c\"", ⟨10, 1⟩⟩),
     .print ⟨.print, "print", ⟨16, 2⟩⟩
      (.formula .add ⟨.plus, "+", ⟨30, 2⟩⟩
        (.assign ⟨.equals, "=", ⟨25, 2⟩⟩ (.leaf .word ⟨.word, "y", ⟨23, 2⟩⟩)
          (.leaf .number ⟨.number, "7", ⟨27, 2⟩⟩))
        (.leaf .word ⟨.word, "x", ⟨32, 2⟩⟩))]

theorem evaluate_leaves_alone_storeThenMissing :
    ∃ after, storeThenMissing.evaluate.runOn
        ({ context := Context.define {} "z" (.int 1), sink := {} } : Machine Buffer) =
          (.error (.undefinedVariable "x"), after) ∧
      after.context.scope.get? "y" = some (.int 7) ∧
      ¬ storeThenMissing.Assigns "z" ∧ after.context.scope.get? "z" = some (.int 1) ∧
      storeThenMissing.KeysAreNames ∧ ¬ storeThenMissing.Aliases "love" ∧
      after.context.aliases.get? "love" = some "😍" := by
  have hrun : storeThenMissing.evaluate.runOn
      ({ context := Context.define {} "z" (.int 1), sink := {} } : Machine Buffer) =
        (.error (.undefinedVariable "x"),
          { context := ((Context.define {} "z" (.int 1)).defineAlias "cat" "c").define "y" (.int 7),
            sink := {} }) := rfl
  have hassigns : ¬ storeThenMissing.Assigns "z" := by
    simp [Node.Assigns, storeThenMissing, Node.parts, Node.partsAll]
  have hnames : storeThenMissing.KeysAreNames := by
    intro operator stated shown hmem
    simp [storeThenMissing, Node.parts, Node.partsAll] at hmem
    obtain ⟨_, rfl, _⟩ := hmem
    exact ⟨_, rfl⟩
  have haliases : ¬ storeThenMissing.Aliases "love" := by
    simp [Node.Aliases, storeThenMissing, Node.parts, Node.partsAll]
  obtain ⟨_, _, hscope, _, hkeys⟩ := evaluate_leaves_alone hrun
  refine ⟨_, hrun, rfl, hassigns, ?_, hnames, haliases, ?_⟩
  · rw [hscope "z" hassigns]
    rfl
  · rw [hkeys hnames "love" haliases]
    rfl

end EmojiScript
