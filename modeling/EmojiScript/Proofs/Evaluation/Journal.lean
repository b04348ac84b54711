import EmojiScript.Proofs.Evaluation.Effects
import EmojiScript.Proofs.Evaluation.Formulas
import EmojiScript.Proofs.Sink

namespace EmojiScript

/-!
# What an evaluation does

An evaluation stores values, gives aliases and writes lines.  Which of these it does next depends on
its context and never on the sink, for a sink can say no more than that it refuses a line.  So a
node can be evaluated without any sink, with a journal in which everything is noted that is done;
to evaluate it on a machine is to do what the journal says until a line is refused.

* `Action`, `Context.after` — one thing that is done, and the context behind many.
* `Node.noted` — evaluation with a journal, by plain recursion.
* `Eval.IsCongruence` — relations between evaluations that hold of a node where they hold of its
  parts.
* `Eval.Replays` — an evaluation does what another one notes.
* `Node.runOn_evaluate_eq_replay` — every node, on every machine.
* `Node.runOn_evaluate_of_neverFails` — the same where no line is refused.
-/

variable {σ α β : Type}

/-! ### Actions -/

/-- The two statements that write a line. -/
inductive Printer where
  | print
  | printAlias
deriving DecidableEq, Repr

/-- A line that is written. -/
structure Line where
  printer : Printer
  text : String
deriving DecidableEq, Repr

/-- One thing that an evaluation does. -/
inductive Action where
  /-- A value is stored. -/
  | define (name : String) (value : Value)
  /-- A key gets its alias. -/
  | defineAlias (key text : String)
  /-- A line is written. -/
  | write (line : Line)
deriving DecidableEq, Repr

namespace Context

/-- The context behind an action. -/
def act (context : Context) : Action → Context
  | .define name value => context.define name value
  | .defineAlias key text => context.defineAlias key text
  | .write _ => context

/-- The context behind actions. -/
def after (context : Context) (actions : List Action) : Context := actions.foldl act context

@[simp] theorem after_nil (context : Context) : context.after [] = context := rfl

@[simp] theorem after_cons (context : Context) (action : Action) (rest : List Action) :
    context.after (action :: rest) = (context.act action).after rest := rfl

theorem after_append (context : Context) (actions more : List Action) :
    context.after (actions ++ more) = (context.after actions).after more := List.foldl_append

end Context

/-- The line that an action writes, if it does. -/
def Action.line? : Action → Option Line
  | write line => some line
  | _ => none

/-- A line is written as its text and, by itself, a line break. -/
def Line.chunks (line : Line) : List ByteArray := [line.text.toUTF8, "\n".toUTF8]

/-- What actions write, in order. -/
def chunksOf (actions : List Action) : List ByteArray :=
  (actions.filterMap Action.line?).flatMap Line.chunks

theorem chunksOf_append (actions more : List Action) :
    chunksOf (actions ++ more) = chunksOf actions ++ chunksOf more := by
  rw [chunksOf, List.filterMap_append, List.flatMap_append]
  rfl

/-! ### Doing what was noted -/

/-- Does an action to a machine. -/
def Action.perform [Sink σ] : Action → Eval σ Unit
  | define name value => Eval.define name value
  | defineAlias key text => Eval.defineAlias key text
  | write line => Eval.writeLine line.text

/-- An action that is done leaves its context. -/
theorem Action.context_of_perform [Sink σ] {action : Action} {machine done : Machine σ}
    (h : action.perform.runOn machine = (.ok (), done)) :
    done.context = machine.context.act action := by
  cases action with
  | define => cases h; rfl
  | defineAlias => cases h; rfl
  | write line =>
    have hcontext := (Eval.writes_writeLine (σ := σ) line.text machine).1
    rw [show Eval.runOn (Eval.writeLine line.text) machine = _ from h] at hcontext
    exact hcontext

namespace Eval

section Replay

variable [Sink σ]

/-- Does actions one after the other, until a line is refused. -/
def performAll (actions : List Action) : Eval σ Unit := forM actions Action.perform

theorem performAll_cons (action : Action) (rest : List Action) :
    (performAll (action :: rest) : Eval σ Unit) = (do action.perform; performAll rest) :=
  List.forM_cons

/-- Actions that are done leave their context. -/
theorem context_of_performAll {actions : List Action} {machine done : Machine σ}
    (h : (performAll actions).runOn machine = (.ok (), done)) :
    done.context = machine.context.after actions := by
  induction actions generalizing machine with
  | nil => cases h; rfl
  | cons action rest ih =>
    rw [performAll_cons, runOn_bind] at h
    rcases hrun : action.perform.runOn machine with ⟨fault | _, next⟩
    · rw [hrun] at h
      cases h
    · rw [hrun] at h
      rw [ih h, Action.context_of_perform hrun, Context.after_cons]

/-- A sink that never fails takes every line. -/
theorem runOn_performAll {sink : σ} (h : Sink.NeverFails sink) (actions : List Action)
    (context : Context) :
    (performAll actions).runOn ⟨context, sink⟩ =
      (.ok (), ⟨context.after actions, Sink.afterWrites sink (chunksOf actions)⟩) := by
  induction actions generalizing context sink with
  | nil => rfl
  | cons action rest ih =>
    rw [performAll_cons, runOn_bind]
    cases action with
    | define name value => exact ih h _
    | defineAlias key text => exact ih h _
    | write line =>
      have hline : (Eval.writeLine line.text).runOn ⟨context, sink⟩ =
          (.ok (), ⟨context, Sink.afterWrites sink line.chunks⟩) := by
        have hbreak := (h.afterWrites [line.text.toUTF8]).write_eq "\n".toUTF8
        rw [writeLine, runOn_bind, write, write, runOn_onSink, h.write_eq]
        show Eval.runOn (onSink _) ⟨context, Sink.afterWrites sink [line.text.toUTF8]⟩ = _
        rw [runOn_onSink, hbreak]
        rfl
      simp only [Action.perform, hline]
      rw [ih (h.afterWrites line.chunks), ← Sink.afterWrites_append]
      rfl

/-- Does actions one after the other, until a line is refused, and then ends with a result. -/
def replay (actions : List Action) (result : Except Fault α) : Eval σ α := do
  performAll actions
  ofExcept result

theorem replay_append (actions more : List Action) (result : Except Fault α) :
    (replay (actions ++ more) result : Eval σ α) = (do performAll actions; replay more result) := by
  rw [replay, performAll, List.forM_append, bind_assoc]
  rfl

end Replay

/-! ### Evaluations with a journal -/

/-- Does an action to the context and notes it behind what was noted before. -/
def note (action : Action) : Eval (List Action) Unit :=
  modify fun machine =>
    { context := machine.context.act action, sink := machine.sink ++ [action] }

end Eval

namespace Node

/-- Stores a value under the name that `target` is, and notes that. -/
def noteAssigned (target : Node) (value : Eval (List Action) Value) : Eval (List Action) Value :=
  match target with
  | leaf .word name => do
    let value ← value
    Eval.note (.define name.text value)
    pure value
  | target => throw (.runtime (.notAssignable (target.line?.getD 0)))

mutual

/-- Evaluates a node and notes what is done, lines being noted in place of being written. -/
def noted : Node → Eval (List Action) (Option Value)
  | leaf form token => some <$> form.evaluate token
  | formula op operator left right => do
    let a ← left.demand left.noted
    let b ← right.demand right.noted
    some <$> Eval.ofExcept (op.apply operator a b)
  | assign _ target value => some <$> target.noteAssigned (value.demand value.noted)
  | defineAlias _ key shown => do
    let key ← key.keyOf (key.demand key.noted)
    let text ← shown.aliasText (shown.demand shown.noted)
    Eval.note (.defineAlias key text)
    return none
  | print _ operand => do
    let value ← operand.demand operand.noted
    Eval.note (.write ⟨.print, value.toText⟩)
    return none
  | printAlias _ operand => do
    let key ← operand.keyOf (operand.demand operand.noted)
    Eval.note (.write ⟨.printAlias, ← Eval.shown key⟩)
    return none
  | program statements => do
    notedAll statements
    return none

/-- Evaluates statements in their order and notes what is done. -/
def notedAll : List Node → Eval (List Action) Unit
  | [] => pure ()
  | statement :: rest => do
    let _ ← statement.noted
    notedAll rest

end

/-- What the evaluation of a node does in a context, for as long as no line is refused. -/
def actions (node : Node) (context : Context) : List Action :=
  (node.noted.runOn ⟨context, []⟩).2.sink

/-- How the evaluation of a node ends in a context, if no line is refused. -/
def ending (node : Node) (context : Context) : Except Fault (Option Value) :=
  (node.noted.runOn ⟨context, []⟩).1

end Node

/-! ### Relations between evaluations -/

namespace Eval

variable {τ : Type}

/-- A relation between evaluations that is kept where they are put in sequence. -/
structure IsCongruence (R : ∀ α : Type, Eval σ α → Eval τ α → Prop) : Prop where
  pure {α : Type} (a : α) : R α (pure a) (pure a)
  throw {α : Type} (fault : Fault) : R α (throw fault) (throw fault)
  bind {α β : Type} {eval : Eval σ α} {noted : Eval τ α} {next : α → Eval σ β}
    {next' : α → Eval τ β} : R α eval noted → (∀ a, R β (next a) (next' a)) →
      R β (eval >>= next) (noted >>= next')

namespace IsCongruence

variable {R : ∀ α : Type, Eval σ α → Eval τ α → Prop} (hR : IsCongruence R)
include hR

theorem ofExcept {α : Type} (result : Except Fault α) : R α (ofExcept result) (ofExcept result) := by
  cases result with
  | error fault => exact hR.throw fault
  | ok a => exact hR.pure a

theorem map {α β : Type} {eval : Eval σ α} {noted : Eval τ α} (h : R α eval noted) (f : α → β) :
    R β (f <$> eval) (f <$> noted) := by
  rw [map_eq_pure_bind, map_eq_pure_bind]
  exact hR.bind h fun a => hR.pure (f a)

theorem demand (node : Node) {eval : Eval σ (Option Value)} {noted : Eval τ (Option Value)}
    (h : R _ eval noted) : R _ (node.demand eval) (node.demand noted) := by
  refine hR.bind h ?_
  intro value?
  cases value? with
  | none => exact hR.throw _
  | some value => exact hR.pure value

variable {value : Eval σ Value} {noted : Eval τ Value}

theorem keyOf (node : Node) (h : R _ value noted) : R _ (node.keyOf value) (node.keyOf noted) := by
  unfold Node.keyOf
  split
  · exact hR.pure _
  · exact hR.map h _

theorem aliasText (node : Node) (h : R _ value noted) :
    R _ (node.aliasText value) (node.aliasText noted) := by
  unfold Node.aliasText
  split
  · exact hR.pure _
  · exact hR.pure _
  · exact hR.map h _

end IsCongruence

end Eval

/-! ### Evaluations that do what was noted -/

namespace Eval

variable [Sink σ]

/-- On every machine, `eval` does what `noted` notes in its context, and then ends as that does. -/
def Replays (eval : Eval σ α) (noted : Eval (List Action) α) : Prop :=
  ∀ context journal, ∃ result actions,
    noted.runOn ⟨context, journal⟩ = (result, ⟨context.after actions, journal ++ actions⟩) ∧
    ∀ sink, eval.runOn ⟨context, sink⟩ = (replay actions result).runOn ⟨context, sink⟩

theorem Replays.bind {eval : Eval σ α} {noted : Eval (List Action) α} {next : α → Eval σ β}
    {next' : α → Eval (List Action) β} (h : eval.Replays noted)
    (hnext : ∀ a, (next a).Replays (next' a)) : (eval >>= next).Replays (noted >>= next') := by
  intro context journal
  obtain ⟨result, actions, hnoted, heval⟩ := h context journal
  cases result with
  | error fault =>
    refine ⟨.error fault, actions, ?_, ?_⟩
    · rw [runOn_bind, hnoted]
    · -- the second part has no say, whether a line is refused or not
      intro sink
      rw [runOn_bind, heval, replay, replay, runOn_bind, runOn_bind]
      rcases (performAll actions).runOn ⟨context, sink⟩ with ⟨refusal | _, done⟩ <;> rfl
  | ok a =>
    obtain ⟨result, more, hnoted', heval'⟩ := hnext a (context.after actions) (journal ++ actions)
    refine ⟨result, actions ++ more, ?_, ?_⟩
    · rw [runOn_bind, hnoted, Context.after_append, ← List.append_assoc]
      exact hnoted'
    · intro sink
      rw [runOn_bind, heval, replay, replay_append, runOn_bind, runOn_bind]
      rcases hrun : (performAll actions).runOn ⟨context, sink⟩ with ⟨refusal | _, done⟩
      · rfl
      · -- the second part finds the context in which it was noted
        obtain ⟨between, sink'⟩ := done
        obtain rfl : between = context.after actions := context_of_performAll hrun
        exact heval' sink'

/-- What only reads the context notes nothing. -/
theorem replays_of_runOn {eval : Eval σ α} {noted : Eval (List Action) α}
    (read : Context → Except Fault α)
    (heval : ∀ machine, eval.runOn machine = (read machine.context, machine))
    (hnoted : ∀ machine, noted.runOn machine = (read machine.context, machine)) :
    eval.Replays noted := by
  intro context journal
  refine ⟨read context, [], ?_, ?_⟩
  · rw [hnoted, Context.after_nil, List.append_nil]
  · intro sink
    rw [heval]
    rfl

theorem isCongruence_replays : IsCongruence fun α => Replays (σ := σ) (α := α) where
  pure a := replays_of_runOn (fun _ => .ok a) (fun _ => rfl) fun _ => rfl
  throw fault := replays_of_runOn (fun _ => .error fault) (fun _ => rfl) fun _ => rfl
  bind := Replays.bind

theorem replays_shown (key : String) : Replays (shown key : Eval σ String) (shown key) :=
  replays_of_runOn (fun context => .ok (context.aliases.shown key)) (fun _ => rfl) fun _ => rfl

/-- An action is done where it is noted. -/
theorem replays_perform (action : Action) :
    Replays (action.perform : Eval σ Unit) (note action) := by
  intro context journal
  refine ⟨.ok (), [action], rfl, ?_⟩
  intro sink
  have hone : (replay [action] (.ok ()) : Eval σ Unit) = action.perform := by
    rw [replay, performAll_cons, bind_assoc]
    exact bind_pure_unit
  rw [hone]

end Eval

namespace Node

variable [Sink σ]

theorem replays_assignTo (target : Node) {value : Eval σ Value} {noted : Eval (List Action) Value}
    (h : value.Replays noted) : (target.assignTo value).Replays (target.noteAssigned noted) := by
  have hcongr := Eval.isCongruence_replays (σ := σ)
  cases target with
  | leaf form name =>
    cases form with
    | word =>
      refine h.bind ?_
      intro value
      exact (Eval.replays_perform (.define name.text value)).bind fun _ => hcongr.pure value
    | _ => exact hcongr.throw _
  | _ => exact hcongr.throw _

theorem replays_notedAll {statements : List Node}
    (h : ∀ statement ∈ statements, Eval.Replays (statement.evaluate : Eval σ _) statement.noted) :
    Eval.Replays (evaluateAll statements : Eval σ Unit) (notedAll statements) := by
  induction statements with
  | nil => exact Eval.isCongruence_replays.pure ()
  | cons statement rest ih =>
    obtain ⟨hfirst, hrest⟩ := List.forall_mem_cons.mp h
    rw [evaluateAll_cons, notedAll]
    exact hfirst.bind fun _ => ih hrest

/-- A node does what is noted of it. -/
theorem replays_noted (node : Node) : Eval.Replays (node.evaluate : Eval σ _) node.noted := by
  have hcongr := Eval.isCongruence_replays (σ := σ)
  induction node with
  | leaf form token =>
    rw [evaluate_leaf, noted]
    exact hcongr.map (Eval.replays_of_runOn (fun context => form.outcome context.scope token)
      (form.runOn_evaluate token) (form.runOn_evaluate token)) some
  | formula op operator left right ihleft ihright =>
    rw [evaluate_formula, noted]
    simp only [map_bind]
    refine (hcongr.demand left ihleft).bind ?_
    intro a
    refine (hcongr.demand right ihright).bind ?_
    intro b
    exact hcongr.map (hcongr.ofExcept _) some
  | assign operator target right _ ih =>
    rw [noted]
    exact hcongr.map (target.replays_assignTo (hcongr.demand right ih)) some
  | defineAlias operator key shown ihkey ihshown =>
    rw [evaluate_defineAlias, noted]
    refine (hcongr.keyOf key (hcongr.demand key ihkey)).bind ?_
    intro key
    refine (hcongr.aliasText shown (hcongr.demand shown ihshown)).bind ?_
    intro text
    exact (Eval.replays_perform (.defineAlias key text)).bind fun _ => hcongr.pure none
  | print operator operand ih =>
    rw [evaluate_print, noted]
    refine (hcongr.demand operand ih).bind ?_
    intro value
    exact (Eval.replays_perform (.write ⟨.print, value.toText⟩)).bind fun _ => hcongr.pure none
  | printAlias operator operand ih =>
    rw [evaluate_printAlias, noted]
    refine (hcongr.keyOf operand (hcongr.demand operand ih)).bind ?_
    intro key
    refine (Eval.replays_shown key).bind ?_
    intro shown
    exact (Eval.replays_perform (.write ⟨.printAlias, shown⟩)).bind fun _ => hcongr.pure none
  | program statements ih =>
    rw [evaluate_program, noted]
    exact (replays_notedAll ih).bind fun _ => hcongr.pure none

/-- **Evaluation replays its journal.** On every machine, a node does what was noted of it in the
context of the machine, one thing after the other until a line is refused, and then ends as it did
when it was noted. -/
theorem runOn_evaluate_eq_replay (node : Node) (machine : Machine σ) :
    node.evaluate.runOn machine =
      (Eval.replay (node.actions machine.context) (node.ending machine.context)).runOn machine := by
  obtain ⟨context, sink⟩ := machine
  obtain ⟨result, actions, hnoted, heval⟩ := node.replays_noted (σ := σ) context []
  simp only [Node.actions, ending, hnoted, List.nil_append]
  exact heval sink

/-- Where no line is refused, everything is done that was noted. -/
theorem runOn_evaluate_of_neverFails {sink : σ} (h : Sink.NeverFails sink) (node : Node)
    (context : Context) :
    node.evaluate.runOn ⟨context, sink⟩ =
      (node.ending context, ⟨context.after (node.actions context),
        Sink.afterWrites sink (chunksOf (node.actions context))⟩) := by
  rw [runOn_evaluate_eq_replay, Eval.replay, Eval.runOn_bind, Eval.runOn_performAll h]
  rfl

end Node

end EmojiScript
