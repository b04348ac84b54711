import EmojiScript.Proofs.Concatenation
import EmojiScript.Proofs.Evaluation.History
import EmojiScript.Proofs.Token.Names

namespace EmojiScript

/-!
# Contexts that runs leave

Whatever is run on a fresh context, and whether the runs succeed or fail, names stay names and texts
stay free of quotes.  A table gets its names from words of a source, and its texts from what stands
between quotes, from words and emojis, and from other texts put together.

* `Context.Reachable` — the contexts that runs leave.
* `Context.WellFormed` — what is to be shown of them.
* `Node.IsStatement.wellFormed` — a statement keeps a context well formed.
* `Context.Reachable.wellFormed` — all runs do.
-/

/-- What runs of sources leave behind, one after the other, on a fresh context at first.  Each run
may have a sink of its own, and may fail. -/
inductive Context.Reachable : Context → Prop where
  | fresh : Reachable {}
  | run {context : Context} {σ : Type} [Sink σ] (sink : σ) (source : String) : Reachable context →
      Reachable (Machine.runSource { context, sink } source).2.context

/-- A value that can be written in a source, as far as quotes go. -/
def Value.Quoteless : Value → Prop
  | int _ => True
  | text s => EmojiScript.Quoteless s

/-- Both tables have names as keys and no quotes in their texts, and all default keys have an
alias. -/
structure Context.WellFormed (context : Context) : Prop where
  stored : ∀ name value, context.scope.get? name = some value → IsName name ∧ value.Quoteless
  given : ∀ key text, context.aliases.get? key = some text → IsName key ∧ Quoteless text
  defaults : ∀ key ∈ AliasTable.defaults.map Prod.fst, (context.aliases.get? key).isSome

/-- An alias behind definitions is one of these, or was there before. -/
theorem AliasTable.get?_foldl_define {aliases : AliasTable} {definitions : List (String × String)}
    {key text : String}
    (h : (definitions.foldl (fun aliases (key, text) => aliases.define key text) aliases).get? key =
      some text) :
    aliases.get? key = some text ∨ (key, text) ∈ definitions := by
  induction definitions generalizing aliases with
  | nil => exact .inl h
  | cons first rest ih =>
    obtain ⟨named, shown⟩ := first
    rw [List.foldl_cons] at h
    rcases ih h with hdefined | hrest
    · rw [get?_define] at hdefined
      split at hdefined
      next heq =>
        obtain rfl := Option.some.inj hdefined
        exact .inr (by simp [heq])
      next => exact .inl hdefined
    · exact .inr (List.mem_cons_of_mem _ hrest)

/-- An alias at the start is one of the defaults. -/
theorem AliasTable.mem_defaults_of_get? {key text : String} (h : default.get? key = some text) :
    (key, text) ∈ defaults := by
  rcases get?_foldl_define h with hempty | hmem
  · simp [get?] at hempty
  · exact hmem

namespace Context.WellFormed

variable {context : Context}

/-- An assignment to a name keeps a context well formed. -/
theorem define (h : context.WellFormed) {name : String} {value : Value} (hname : IsName name)
    (hvalue : value.Quoteless) : (context.define name value).WellFormed where
  stored := by
    intro other found hget
    rw [Context.define, Scope.get?_define] at hget
    split at hget
    next heq =>
      obtain rfl := Option.some.inj hget
      exact ⟨heq ▸ hname, hvalue⟩
    next => exact h.stored other found hget
  given := h.given
  defaults := h.defaults

/-- An alias for a name keeps a context well formed. -/
theorem defineAlias (h : context.WellFormed) {key text : String} (hkey : IsName key)
    (htext : Quoteless text) : (context.defineAlias key text).WellFormed where
  stored := h.stored
  given := by
    intro other found hget
    rw [Context.defineAlias, AliasTable.get?_define] at hget
    split at hget
    next heq =>
      obtain rfl := Option.some.inj hget
      exact ⟨heq ▸ hkey, htext⟩
    next => exact h.given other found hget
  defaults := by
    intro other hother
    rw [Context.defineAlias, AliasTable.get?_define]
    split
    next => rfl
    next => exact h.defaults other hother

/-- A fresh context is well formed. -/
theorem fresh : WellFormed {} where
  stored := by
    intro name value hget
    rw [Scope.get?_empty] at hget
    cases hget
  given := by
    intro key text hget
    have hdefaults : ∀ entry ∈ AliasTable.defaults, IsName entry.1 ∧ Quoteless entry.2 := by decide
    exact hdefaults (key, text) (AliasTable.mem_defaults_of_get? hget)
  defaults := by
    intro key hkey
    exact (AliasTable.isSome_get?_default key).mpr hkey

end Context.WellFormed

/-! ### Tokens of a source -/

/-- A token was found at the front of some text. -/
def Token.IsFound (token : Token) : Prop :=
  ∃ rest, Kind.find? Kind.catalog rest = some (token.kind, token.text.toList)

namespace Token.IsFound

variable {token : Token}

theorem isName (h : token.IsFound) (hkind : token.kind = .word) : IsName token.text := by
  obtain ⟨rest, hfind⟩ := h
  rw [hkind] at hfind
  simpa using Kind.isName_of_find? hfind

/-- What stands between the quotes of a text has none. -/
theorem quoteless_unquote (h : token.IsFound) (hkind : token.kind = .text) :
    Quoteless (unquote token.text) := by
  obtain ⟨rest, hfind⟩ := h
  rw [hkind] at hfind
  obtain ⟨inner, hlexeme, hinner⟩ := Kind.exists_inner_of_find? hfind
  have htext : token.text = String.ofList ('"' :: (inner ++ ['"'])) := by
    rw [← hlexeme, String.ofList_toList]
  rw [htext, unquote_quoted, Quoteless, String.toList_ofList]
  exact hinner

theorem quoteless_emoji (h : token.IsFound) (hkind : token.kind = .emoji) :
    Quoteless token.text := by
  obtain ⟨rest, hfind⟩ := h
  rw [hkind] at hfind
  exact Kind.quoteless_of_find?_emoji hfind

end Token.IsFound

/-! ### Formulas -/

/-- Texts without quotes are put together to one. -/
theorem Arithmetic.quoteless_of_apply {op : Arithmetic} {operator : Token} {a b value : Value}
    (ha : a.Quoteless) (hb : b.Quoteless) (h : op.apply operator a b = .ok value) :
    value.Quoteless := by
  unfold apply at h
  split at h
  next =>
    split at h
    next =>
      obtain rfl := Except.ok.inj h
      trivial
    next => cases h
  next =>
    cases op with
    | add =>
      obtain rfl := Except.ok.inj h
      exact EmojiScript.Quoteless.append ha hb
    | sub => cases h
  next => cases h

namespace Node

/-- **Values of formulas** have no quotes if those of the variables have none. -/
theorem IsFormula.quoteless_of_outcome {node : Node} {scope : Scope} {value : Value}
    (h : node.IsFormula) (hfound : ∀ token ∈ node.inOrder, token.IsFound)
    (hscope : ∀ name value, scope.get? name = some value → value.Quoteless)
    (houtcome : node.outcome scope = .ok value) : value.Quoteless := by
  induction h generalizing value with
  | @leaf form token hform hkind =>
    have htoken := hfound token (List.mem_singleton_self _)
    rw [outcome] at houtcome
    cases form with
    | number =>
      simp only [Leaf.outcome] at houtcome
      split at houtcome
      next =>
        obtain rfl := Except.ok.inj houtcome
        trivial
      next => cases houtcome
    | text =>
      obtain rfl := Except.ok.inj houtcome
      exact htoken.quoteless_unquote hkind
    | emoji => exact absurd rfl hform
    | word =>
      simp only [Leaf.outcome] at houtcome
      split at houtcome
      next hget =>
        obtain rfl := Except.ok.inj houtcome
        exact hscope _ _ hget
      next => cases houtcome
  | @formula op operator left right _ _ _ ihleft ihright =>
    obtain ⟨hleft, hright⟩ := List.forall_mem_append.mp hfound
    obtain ⟨_, hright⟩ := List.forall_mem_cons.mp hright
    rw [outcome] at houtcome
    cases ha : left.outcome scope with
    | error =>
      rw [ha] at houtcome
      cases houtcome
    | ok a =>
      cases hb : right.outcome scope with
      | error =>
        rw [ha, hb] at houtcome
        cases houtcome
      | ok b =>
        rw [ha, hb] at houtcome
        exact op.quoteless_of_apply (ihleft hleft ha) (ihright hright hb) houtcome

/-- What a leaf gives to an alias has no quotes. -/
theorem quoteless_shown {form : Leaf} {token : Token} (hform : form ≠ .number)
    (hkind : token.kind = form.kind) (hfound : token.IsFound) :
    Quoteless (form.shown token) := by
  cases form with
  | number => exact absurd rfl hform
  | text => exact hfound.quoteless_unquote hkind
  | emoji => exact hfound.quoteless_emoji hkind
  | word => exact (hfound.isName hkind).quoteless

/-! ### Statements -/

/-- What a statement does to a context keeps it well formed. -/
theorem IsStatement.wellFormed_effect {statement : Node} {context : Context} {effect : Effect}
    (h : statement.IsStatement) (hfound : ∀ token ∈ statement.inOrder, token.IsFound)
    (hcontext : context.WellFormed) (heffect : statement.effect context = .ok effect) :
    effect.context.WellFormed := by
  cases h with
  | @assign name operator formula hname _ hformula =>
    obtain ⟨value, houtcome, rfl⟩ := exists_of_map_ok heffect
    obtain ⟨htarget, hrest⟩ := List.forall_mem_append.mp hfound
    obtain ⟨_, hvalue⟩ := List.forall_mem_cons.mp hrest
    refine hcontext.define ((htarget name (List.mem_singleton_self _)).isName hname) ?_
    exact hformula.quoteless_of_outcome hvalue (fun name value h => (hcontext.stored name value h).2)
      houtcome
  | @defineAlias keyword key shown form _ hkey hform hshown =>
    simp only [Node.effect, nameIn_leaf_of_ne_number hform] at heffect
    obtain rfl := Except.ok.inj heffect
    exact hcontext.defineAlias ((hfound key (by simp [inOrder])).isName hkey)
      (quoteless_shown hform hshown (hfound shown (by simp [inOrder])))
  | print | printAlias =>
    obtain ⟨_, _, rfl⟩ := exists_of_map_ok heffect
    exact hcontext

end Node

/-! ### Runs -/

variable {σ α β : Type}

/-- An evaluation leaves a well-formed context where it finds one, whether it fails or not. -/
def Eval.KeepsForm (eval : Eval σ α) : Prop :=
  ∀ machine, machine.context.WellFormed → (eval.runOn machine).2.context.WellFormed

theorem Eval.KeepsForm.bind {eval : Eval σ α} {next : α → Eval σ β} (h : eval.KeepsForm)
    (hnext : ∀ a, (next a).KeepsForm) : (eval >>= next).KeepsForm := by
  intro machine hmachine
  have hbetween := h machine hmachine
  rcases Eval.runOn_bind_cases eval next machine with
    ⟨a, between, hrun, hbind⟩ | ⟨fault, after, hrun, hbind⟩
  · rw [hrun] at hbetween
    rw [hbind]
    exact hnext a between hbetween
  · rw [hrun] at hbetween
    rw [hbind]
    exact hbetween

variable [Sink σ]

namespace Node

/-- **Statements keep contexts well formed.** -/
theorem IsStatement.keepsForm {statement : Node} (h : statement.IsStatement)
    (hfound : ∀ token ∈ statement.inOrder, token.IsFound) :
    Eval.KeepsForm (statement.evaluate : Eval σ _) := by
  intro machine hmachine
  rcases h.evaluate_cases machine with
    ⟨fault, _, hfails⟩ | ⟨effect, after, heffect, hcontext, hok | ⟨reason, hrefused⟩⟩
  · rw [hfails]
    exact hmachine
  · rw [hok, hcontext]
    exact h.wellFormed_effect hfound hmachine heffect
  · rw [hrefused, hcontext]
    exact h.wellFormed_effect hfound hmachine heffect

theorem keepsForm_evaluateAll {statements : List Node}
    (h : ∀ statement ∈ statements, Eval.KeepsForm (statement.evaluate : Eval σ _)) :
    Eval.KeepsForm (evaluateAll statements : Eval σ Unit) := by
  induction statements with
  | nil => exact fun _ hmachine => hmachine
  | cons statement rest ih =>
    obtain ⟨hfirst, hrest⟩ := List.forall_mem_cons.mp h
    rw [evaluateAll_cons]
    exact hfirst.bind fun _ => ih hrest

end Node

/-- A source keeps contexts well formed. -/
theorem Machine.wellFormed_runSource (source : String) (machine : Machine σ)
    (h : machine.context.WellFormed) : (machine.runSource source).2.context.WellFormed := by
  cases hcompile : compile source with
  | error fault =>
    rw [Machine.runSource_of_error hcompile]
    exact h
  | ok program =>
    rw [Machine.runSource_of_ok hcompile]
    obtain ⟨statements, rfl, hstatements⟩ := exists_statements_of_compile hcompile
    have hfound := exists_find?_of_compile hcompile
    have hall : Eval.KeepsForm (Node.evaluateAll statements : Eval σ Unit) := by
      refine Node.keepsForm_evaluateAll ?_
      intro statement hmem
      refine (hstatements statement hmem).1.keepsForm ?_
      exact fun token htoken => hfound token (Node.mem_inOrderAll hmem htoken)
    have hrun : Eval.KeepsForm ((Node.program statements).run : Eval σ Unit) := by
      rw [Node.run, Node.evaluate_program]
      refine Eval.KeepsForm.bind ?_ fun _ _ hmachine => hmachine
      exact hall.bind fun _ _ hmachine => hmachine
    exact hrun machine h

/-- **Reachable contexts are well formed.** -/
theorem Context.Reachable.wellFormed {context : Context} (h : context.Reachable) :
    context.WellFormed := by
  induction h with
  | fresh => exact .fresh
  | run sink source _ ih => exact Machine.wellFormed_runSource source _ ih

end EmojiScript
