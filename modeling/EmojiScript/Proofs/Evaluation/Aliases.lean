import EmojiScript.Proofs.Evaluation.Journal
import Mathlib.Data.List.Forall2

namespace EmojiScript

/-!
# Aliases are only shown

The table of aliases is asked for nothing but the text of a line that `ejprint` writes.  No value,
fault, key or later step depends on it.  So of one node on two machines that differ in their aliases,
the evaluations store the same values, give the same aliases and write as many lines, of which only
those of `ejprint` may differ.

* `Action.Alike`, `Line.Alike` — what may differ between the two.
* `Eval.NotesAlike` — two evaluations with a journal that do alike things.
* `Node.notesAlike_noted` — every node does alike things whatever the aliases are.
* `Node.Course` — what an evaluation does to its machine, and in which order.
* `evaluate_ignores_aliases` — every node, and any two tables of aliases.
-/

/-! ### What may differ -/

/-- The key and the text of the alias that an action gives, if it does. -/
def Action.alias? : Action → Option (String × String)
  | defineAlias key text => some (key, text)
  | _ => none

/-- The table of aliases behind definitions of a key and its text. -/
def AliasTable.defineAll (aliases : AliasTable) (definitions : List (String × String)) :
    AliasTable :=
  definitions.foldl (fun aliases (key, text) => aliases.define key text) aliases

/-- Actions leave the table of aliases that their definitions leave. -/
theorem Context.aliases_after (context : Context) (actions : List Action) :
    (context.after actions).aliases =
      context.aliases.defineAll (actions.filterMap Action.alias?) := by
  induction actions generalizing context with
  | nil => rfl
  | cons action rest ih => cases action <;> exact ih _

/-- Two lines come from the same statement, and have the same text unless that is an `ejprint`. -/
def Line.Alike (line other : Line) : Prop :=
  line.printer = other.printer ∧ (line.printer = .print → line.text = other.text)

/-- Two actions are the same but for the text that `ejprint` shows. -/
inductive Action.Alike : Action → Action → Prop where
  | refl (action : Action) : Alike action action
  | shown (text other : String) : Alike (.write ⟨.printAlias, text⟩) (.write ⟨.printAlias, other⟩)

variable {α β : Type} {actions others : List Action}

theorem Action.Alike.alias? {action other : Action} (h : action.Alike other) :
    action.alias? = other.alias? := by
  cases h <;> rfl

theorem Action.Alike.line? {action other : Action} (h : action.Alike other) :
    Option.Rel Line.Alike action.line? other.line? := by
  cases h with
  | refl =>
    cases action with
    | write line => exact .some ⟨rfl, fun _ => rfl⟩
    | _ => exact .none
  | shown text other => exact .some ⟨rfl, nofun⟩

/-- Alike actions give the same aliases. -/
theorem filterMap_alias?_of_alike (h : List.Forall₂ Action.Alike actions others) :
    actions.filterMap Action.alias? = others.filterMap Action.alias? := by
  induction h with
  | nil => rfl
  | cons hfirst _ ih => rw [List.filterMap_cons, List.filterMap_cons, hfirst.alias?, ih]

/-- Alike actions write alike lines. -/
theorem forall₂_line?_of_alike (h : List.Forall₂ Action.Alike actions others) :
    List.Forall₂ Line.Alike (actions.filterMap Action.line?) (others.filterMap Action.line?) :=
  List.rel_filterMap (fun _ _ hfirst => hfirst.line?) h

/-- Alike actions leave the same scope. -/
theorem Context.scope_after_of_alike {context other : Context}
    (hscope : context.scope = other.scope) (h : List.Forall₂ Action.Alike actions others) :
    (context.after actions).scope = (other.after others).scope := by
  induction h generalizing context other with
  | nil => exact hscope
  | @cons action action' _ _ hfirst _ ih =>
    have hact : (context.act action).scope = (other.act action').scope := by
      cases hfirst with
      | refl =>
        cases action with
        | define name value => exact congrArg (·.define name value) hscope
        | _ => exact hscope
      | shown => exact hscope
    exact ih hact

/-! ### Evaluations that do alike things -/

namespace Eval

/-- In contexts with the same scope, two evaluations note alike actions and end in the same way. -/
def NotesAlike (noted noted' : Eval (List Action) α) : Prop :=
  ∀ context other : Context, context.scope = other.scope → ∀ journal journal',
    ∃ result actions others,
      noted.runOn ⟨context, journal⟩ = (result, ⟨context.after actions, journal ++ actions⟩) ∧
      noted'.runOn ⟨other, journal'⟩ = (result, ⟨other.after others, journal' ++ others⟩) ∧
      List.Forall₂ Action.Alike actions others

theorem NotesAlike.bind {noted noted' : Eval (List Action) α}
    {next next' : α → Eval (List Action) β} (h : noted.NotesAlike noted')
    (hnext : ∀ a, (next a).NotesAlike (next' a)) : (noted >>= next).NotesAlike (noted' >>= next') := by
  intro context other hscope journal journal'
  obtain ⟨result, actions, others, hrun, hrun', halike⟩ := h context other hscope journal journal'
  cases result with
  | error fault =>
    refine ⟨.error fault, actions, others, ?_, ?_, halike⟩
    · rw [runOn_bind, hrun]
    · rw [runOn_bind, hrun']
  | ok a =>
    -- what was done so far leaves the scopes equal, so the second parts do alike things too
    obtain ⟨result, more, more', hrun₂, hrun₂', halike₂⟩ :=
      hnext a _ _ (Context.scope_after_of_alike hscope halike) (journal ++ actions)
        (journal' ++ others)
    refine ⟨result, actions ++ more, others ++ more', ?_, ?_, List.rel_append halike halike₂⟩
    · rw [runOn_bind, hrun, Context.after_append, ← List.append_assoc]
      exact hrun₂
    · rw [runOn_bind, hrun', Context.after_append, ← List.append_assoc]
      exact hrun₂'

/-- What only reads the scope does not depend on the aliases. -/
theorem notesAlike_of_runOn {noted : Eval (List Action) α} (read : Scope → Except Fault α)
    (h : ∀ machine, noted.runOn machine = (read machine.context.scope, machine)) :
    noted.NotesAlike noted := by
  intro context other hscope journal journal'
  refine ⟨read context.scope, [], [], ?_, ?_, .nil⟩
  · rw [h, List.append_nil]
    rfl
  · rw [h, List.append_nil, hscope]
    rfl

theorem isCongruence_notesAlike : IsCongruence fun α => NotesAlike (α := α) where
  pure a := notesAlike_of_runOn (fun _ => .ok a) fun _ => rfl
  throw fault := notesAlike_of_runOn (fun _ => .error fault) fun _ => rfl
  bind := NotesAlike.bind

theorem notesAlike_note (action : Action) : (note action).NotesAlike (note action) := by
  intro context other _ journal journal'
  exact ⟨.ok (), [action], [action], rfl, rfl, .cons (.refl action) .nil⟩

/-- What is shown for a key may differ, and so may the line that shows it. -/
theorem notesAlike_shown (key : String) :
    NotesAlike (do note (.write ⟨.printAlias, ← shown key⟩))
      (do note (.write ⟨.printAlias, ← shown key⟩)) := by
  intro context other _ journal journal'
  exact ⟨.ok (), [_], [_], rfl, rfl, .cons (.shown _ _) .nil⟩

end Eval

namespace Node

theorem notesAlike_noteAssigned (target : Node) {noted : Eval (List Action) Value}
    (h : noted.NotesAlike noted) :
    (target.noteAssigned noted).NotesAlike (target.noteAssigned noted) := by
  have hcongr := Eval.isCongruence_notesAlike
  cases target with
  | leaf form name =>
    cases form with
    | word =>
      refine h.bind ?_
      intro value
      exact (Eval.notesAlike_note (.define name.text value)).bind fun _ => hcongr.pure value
    | _ => exact hcongr.throw _
  | _ => exact hcongr.throw _

theorem notesAlike_notedAll {statements : List Node}
    (h : ∀ statement ∈ statements, statement.noted.NotesAlike statement.noted) :
    (notedAll statements).NotesAlike (notedAll statements) := by
  induction statements with
  | nil => exact Eval.isCongruence_notesAlike.pure ()
  | cons statement rest ih =>
    obtain ⟨hfirst, hrest⟩ := List.forall_mem_cons.mp h
    rw [notedAll]
    exact hfirst.bind fun _ => ih hrest

/-- **Every node does alike things**, whatever the aliases are. -/
theorem notesAlike_noted (node : Node) : node.noted.NotesAlike node.noted := by
  have hcongr := Eval.isCongruence_notesAlike
  induction node with
  | leaf form token =>
    rw [noted]
    exact hcongr.map (Eval.notesAlike_of_runOn (form.outcome · token) (form.runOn_evaluate token))
      some
  | formula op operator left right ihleft ihright =>
    rw [noted]
    refine (hcongr.demand left ihleft).bind ?_
    intro a
    refine (hcongr.demand right ihright).bind ?_
    intro b
    exact hcongr.map (hcongr.ofExcept _) some
  | assign operator target right _ ih =>
    rw [noted]
    exact hcongr.map (target.notesAlike_noteAssigned (hcongr.demand right ih)) some
  | defineAlias operator key shown ihkey ihshown =>
    rw [noted]
    refine (hcongr.keyOf key (hcongr.demand key ihkey)).bind ?_
    intro key
    refine (hcongr.aliasText shown (hcongr.demand shown ihshown)).bind ?_
    intro text
    exact (Eval.notesAlike_note (.defineAlias key text)).bind fun _ => hcongr.pure none
  | print operator operand ih =>
    rw [noted]
    refine (hcongr.demand operand ih).bind ?_
    intro value
    exact (Eval.notesAlike_note (.write ⟨.print, value.toText⟩)).bind fun _ => hcongr.pure none
  | printAlias operator operand ih =>
    -- the key is the same, and what is shown for it is only written
    rw [noted]
    refine (hcongr.keyOf operand (hcongr.demand operand ih)).bind ?_
    intro key
    exact (Eval.notesAlike_shown key).bind fun _ => hcongr.pure none
  | program statements ih =>
    rw [noted]
    exact (notesAlike_notedAll ih).bind fun _ => hcongr.pure none

/-! ### Evaluations on two machines -/

/-- On this machine, a node ends with this result and leaves this scope.  It gives these aliases and
writes these lines, in their order. -/
structure Course {σ : Type} [Sink σ] (node : Node) (machine : Machine σ)
    (result : Except Fault (Option Value)) (scope : Scope) (definitions : List (String × String))
    (lines : List Line) : Prop where
  definitions_eq : (node.actions machine.context).filterMap Action.alias? = definitions
  lines_eq : (node.actions machine.context).filterMap Action.line? = lines
  runOn_eq : node.evaluate.runOn machine =
    (result, ⟨⟨scope, machine.context.aliases.defineAll definitions⟩,
      Sink.afterWrites machine.sink (lines.flatMap Line.chunks)⟩)

/-- Where no line is refused, evaluation takes the course of its journal. -/
theorem course_of_neverFails {σ : Type} [Sink σ] {sink : σ} (h : Sink.NeverFails sink)
    (node : Node) (context : Context) :
    Course node ⟨context, sink⟩ (node.ending context) (context.after (node.actions context)).scope
      ((node.actions context).filterMap Action.alias?)
      ((node.actions context).filterMap Action.line?) where
  definitions_eq := rfl
  lines_eq := rfl
  runOn_eq := by
    rw [node.runOn_evaluate_of_neverFails h, ← Context.aliases_after]
    rfl

end Node

/-- **Aliases never influence values.** Take a node and two contexts with the same scope, whatever
their aliases are, and a sink that never fails.  Both evaluations end in the same way, leave the same
scope and give the same aliases in the same order.  They write as many lines, each by the same
statement, and only lines of `ejprint` may have another text. -/
theorem evaluate_ignores_aliases {σ : Type} [Sink σ] {sink : σ} (hsink : Sink.NeverFails sink)
    (node : Node) {context other : Context} (hscope : context.scope = other.scope) :
    ∃ result scope definitions lines lines',
      Node.Course node ⟨context, sink⟩ result scope definitions lines ∧
      Node.Course node ⟨other, sink⟩ result scope definitions lines' ∧
      List.Forall₂ Line.Alike lines lines' := by
  obtain ⟨result, actions, others, hrun, hrun', halike⟩ :=
    node.notesAlike_noted context other hscope [] []
  have hactions : node.actions context = actions := by simp [Node.actions, hrun]
  have hothers : node.actions other = others := by simp [Node.actions, hrun']
  have hending : node.ending context = result := by simp [Node.ending, hrun]
  have hending' : node.ending other = result := by simp [Node.ending, hrun']
  have hcourse := node.course_of_neverFails hsink context
  have hcourse' := node.course_of_neverFails hsink other
  rw [hactions, hending] at hcourse
  rw [hothers, hending', ← Context.scope_after_of_alike hscope halike,
    ← filterMap_alias?_of_alike halike] at hcourse'
  exact ⟨_, _, _, _, _, hcourse, hcourse', forall₂_line?_of_alike halike⟩

/-- The program of `ejkey "a" + "b" "c"`, `ejprint love` and `print "d"`.  Its first statement has to
be made by hand, for it gives an alias to a key that is computed. -/
def showLove : Node :=
  .program
    [.defineAlias ⟨.ejkey, "ejkey", ⟨0, 1⟩⟩
      (.formula .add ⟨.plus, "+", ⟨10, 1⟩⟩ (.leaf .text ⟨.text, "\"a\"", ⟨6, 1⟩⟩)
        (.leaf .text ⟨.text, "\"b\"", ⟨12, 1⟩⟩))
      (.leaf .text ⟨.text, "\"c\"", ⟨16, 1⟩⟩),
     .printAlias ⟨.ejprint, "ejprint", ⟨22, 2⟩⟩ (.leaf .word ⟨.word, "love", ⟨30, 2⟩⟩),
     .print ⟨.print, "print", ⟨37, 3⟩⟩ (.leaf .text ⟨.text, "\"d\"", ⟨43, 3⟩⟩)]

theorem evaluate_ignores_aliases_showLove :
    Sink.NeverFails (Buffer.unlimited {}) ∧
      Context.scope {} = (Context.defineAlias {} "love" "heart").scope ∧
      ∃ result scope,
        Node.Course showLove ⟨{}, Buffer.unlimited {}⟩ result scope [("ab", "c")]
          [⟨.printAlias, "😍"⟩, ⟨.print, "d"⟩] ∧
        Node.Course showLove ⟨Context.defineAlias {} "love" "heart", Buffer.unlimited {}⟩ result scope
          [("ab", "c")] [⟨.printAlias, "heart"⟩, ⟨.print, "d"⟩] := by
  have hsink := Buffer.neverFails_unlimited {}
  have hscope : Context.scope {} = (Context.defineAlias {} "love" "heart").scope := rfl
  refine ⟨hsink, hscope, ?_⟩
  obtain ⟨result, scope, definitions, lines, lines', hcourse, hcourse', _⟩ :=
    evaluate_ignores_aliases hsink showLove hscope
  obtain rfl : definitions = [("ab", "c")] := hcourse.definitions_eq.symm.trans (by decide +kernel)
  obtain rfl : lines = [⟨.printAlias, "😍"⟩, ⟨.print, "d"⟩] :=
    hcourse.lines_eq.symm.trans (by decide +kernel)
  obtain rfl : lines' = [⟨.printAlias, "heart"⟩, ⟨.print, "d"⟩] :=
    hcourse'.lines_eq.symm.trans (by decide +kernel)
  exact ⟨result, scope, hcourse, hcourse'⟩

end EmojiScript
