import EmojiScript.Proofs.Evaluation.Faults

namespace EmojiScript

/-!
# Evaluation on kinds

Evaluation can be done on kinds alone: of a variable only whether it has a number or a string is
kept, literals are not looked at, and `+` and `-` see the kinds of their operands.  A statement on
values goes in step with the same statement on kinds: both go on with the same kinds, or both fail
at the same token with the same fault, or the first alone fails, for a number that does not fit or
at its sink.

* `Node.infer`, `Kinds.step` — formulas and statements on kinds.
* `Node.IsFormula.locate_cases` — formulas on values and on kinds.
* `Node.IsStatement.step_cases` — statements on values and on kinds.
-/

/-! ### Kinds of variables -/

/-- The kinds of variables that have a value. -/
abbrev Kinds := String → Option Value.Kind

/-- The kinds with that of one variable changed. -/
def Kinds.define (kinds : Kinds) (name : String) (kind : Value.Kind) : Kinds :=
  fun other => if name = other then some kind else kinds other

/-- The kinds of the variables of a scope. -/
def Scope.kinds (scope : Scope) : Kinds := fun name => (scope.get? name).map Value.kind

theorem Scope.kinds_define (scope : Scope) (name : String) (value : Value) :
    (scope.define name value).kinds = scope.kinds.define name value.kind := by
  funext other
  rw [kinds, get?_define, Kinds.define]
  by_cases h : name = other
  · rw [if_pos h, if_pos h]
    rfl
  · rw [if_neg h, if_neg h]
    rfl

/-! ### Faults and their tokens -/

/-- A fault with the variable, literal or operator at which it arises. -/
structure Failure where
  token? : Option Token
  fault : Fault
deriving DecidableEq

namespace Fault

/-- Faults that can be told from kinds. -/
def IsOfKinds : Fault → Prop
  | undefinedVariable _ | type _ => True
  | _ => False

/-- Faults that depend on the size of a number or on the sink. -/
def IsOfValues : Fault → Prop
  | invalidNumber _ | runtime (.overflow ..) | sink _ => True
  | _ => False

end Fault

namespace Node

/-! ### Formulas -/

/-- The value of a formula in a scope, or its fault with the token at which it arises. -/
def locate (scope : Scope) : Node → Except Failure Value
  | leaf form token => (form.outcome scope token).mapError (Failure.mk token)
  | formula op operator left right => do
    let a ← left.locate scope
    let b ← right.locate scope
    (op.apply operator a b).mapError (Failure.mk operator)
  | node => .error ⟨none, .runtime (.valueless (node.line?.getD 0))⟩

/-- The kind of a formula on the kinds of its variables, or its fault with the token at which it
arises. -/
def infer (kinds : Kinds) : Node → Except Failure Value.Kind
  | leaf .number _ => .ok .number
  | leaf .text _ | leaf .emoji _ => .ok .string
  | leaf .word name =>
    match kinds name.text with
    | some kind => .ok kind
    | none => .error ⟨name, .undefinedVariable name.text⟩
  | formula op operator left right => do
    let a ← left.infer kinds
    let b ← right.infer kinds
    match op.resultKind? a b with
    | some kind => .ok kind
    | none => .error ⟨operator, op.mismatch operator a b⟩
  | node => .error ⟨none, .runtime (.valueless (node.line?.getD 0))⟩

/-- A located fault is the fault of the formula. -/
theorem outcome_eq_locate (scope : Scope) (node : Node) :
    node.outcome scope = (node.locate scope).mapError Failure.fault := by
  induction node with
  | leaf form token =>
    rw [outcome, locate]
    cases form.outcome scope token <;> rfl
  | formula op operator left right ihleft ihright =>
    rw [outcome, locate, ihleft, ihright]
    cases left.locate scope with
    | error => rfl
    | ok a =>
      cases right.locate scope with
      | error => rfl
      | ok b =>
        show op.apply operator a b = ((op.apply operator a b).mapError _).mapError _
        cases op.apply operator a b <;> rfl
  | _ => rfl

/-- What an evaluation on values and one on kinds come to: related results, the same fault at the
same token, or a fault of values in the first, which the second does not see. -/
inductive InStep {α β : Type} (rel : α → β → Prop) : Except Failure α → Except Failure β → Prop where
  | ok {a : α} {b : β} : rel a b → InStep rel (.ok a) (.ok b)
  | kinds {failure : Failure} : failure.fault.IsOfKinds →
      InStep rel (.error failure) (.error failure)
  | values {failure : Failure} {inferred : Except Failure β} : failure.fault.IsOfValues →
      InStep rel (.error failure) inferred

/-- Evaluations stay in step if what follows them does. -/
theorem InStep.bind {α β γ δ : Type} {rel : α → β → Prop} {rel' : γ → δ → Prop}
    {first : Except Failure α} {second : Except Failure β} {next : α → Except Failure γ}
    {next' : β → Except Failure δ} (h : InStep rel first second)
    (hnext : ∀ a b, rel a b → InStep rel' (next a) (next' b)) :
    InStep rel' (first >>= next) (second >>= next') := by
  cases h with
  | ok hrel => exact hnext _ _ hrel
  | kinds hkinds => exact .kinds hkinds
  | values hvalues => exact .values hvalues

/-- A value has this kind. -/
def HasKind (value : Value) (kind : Value.Kind) : Prop := value.kind = kind

/-- Operations stay in step on operands of the kinds that were inferred. -/
theorem inStep_apply (op : Arithmetic) (operator : Token) (a b : Value) :
    InStep HasKind ((op.apply operator a b).mapError (Failure.mk operator))
      (match op.resultKind? a.kind b.kind with
        | some kind => .ok kind
        | none => .error ⟨operator, op.mismatch operator a.kind b.kind⟩) := by
  rcases op.apply_cases operator a b with
    ⟨value, hok, hkind⟩ | ⟨m, n, rfl, rfl, _, herror⟩ | ⟨hkind, herror⟩
  · rw [hok, hkind]
    exact .ok rfl
  · rw [herror]
    exact .values trivial
  · rw [herror, hkind]
    exact .kinds (by cases op <;> trivial)

/-- **Formulas in step.** -/
theorem IsFormula.inStep {node : Node} (h : node.IsFormula) (scope : Scope) :
    InStep HasKind (node.locate scope) (node.infer scope.kinds) := by
  induction h with
  | @leaf form token =>
    cases form with
    | number =>
      simp only [locate, Leaf.outcome, infer]
      cases Numeral.read? token.text with
      | none => exact .values trivial
      | some n => exact .ok rfl
    | text | emoji => exact .ok rfl
    | word =>
      simp only [locate, Leaf.outcome, infer, Scope.kinds]
      cases scope.get? token.text with
      | none => exact .kinds trivial
      | some value => exact .ok rfl
  | @formula op operator _ _ _ _ _ ihleft ihright =>
    rw [locate, infer]
    refine ihleft.bind ?_
    rintro a _ rfl
    refine ihright.bind ?_
    rintro b _ rfl
    exact inStep_apply op operator a b

/-- A formula has a value of the kind that was inferred, the same fault on kinds, or a fault of
values. -/
theorem IsFormula.locate_cases {node : Node} (h : node.IsFormula) (scope : Scope) :
    (∃ value, node.outcome scope = .ok value ∧ node.infer scope.kinds = .ok value.kind) ∨
    (∃ failure, node.outcome scope = .error failure.fault ∧ node.locate scope = .error failure ∧
      failure.fault.IsOfKinds ∧ node.infer scope.kinds = .error failure) ∨
    ∃ fault, node.outcome scope = .error fault ∧ fault.IsOfValues := by
  have hstep := h.inStep scope
  rw [outcome_eq_locate]
  generalize node.locate scope = located at hstep ⊢
  generalize node.infer scope.kinds = inferred at hstep ⊢
  cases hstep with
  | ok hkind =>
    obtain rfl := hkind
    exact .inl ⟨_, rfl, rfl⟩
  | kinds hkinds => exact .inr (.inl ⟨_, rfl, rfl, hkinds, rfl⟩)
  | values hvalues => exact .inr (.inr ⟨_, rfl, hvalues⟩)

end Node

/-! ### Statements -/

/-- On kinds, a name stands for itself as a key or as an alias, and any other node needs a
value. -/
def Node.inferName (kinds : Kinds) : Node → Except Failure Unit
  | leaf .word _ => .ok ()
  | node => (node.infer kinds).map fun _ => ()

theorem Node.inferName_of_ne_word {node : Node} (h : ∀ name, node ≠ leaf .word name)
    (kinds : Kinds) : node.inferName kinds = (node.infer kinds).map fun _ => () := by
  rw [inferName]
  exact h

/-- The kinds behind a statement, or its fault with the token at which it arises. -/
def Kinds.step (kinds : Kinds) : Node → Except Failure Kinds
  | .assign _ (.leaf .word name) value => (value.infer kinds).map (kinds.define name.text)
  | .defineAlias _ key shown => do
    key.inferName kinds
    shown.inferName kinds
    return kinds
  | .print _ operand => (operand.infer kinds).map fun _ => kinds
  | .printAlias _ operand => (operand.inferName kinds).map fun _ => kinds
  | node => (node.infer kinds).map fun _ => kinds

/-- A statement fails in this scope at the token of the failure. -/
def Node.FailsAt (statement : Node) (scope : Scope) (failure : Failure) : Prop :=
  ∃ formula, statement.formula? = some formula ∧ formula.locate scope = .error failure

namespace Node

variable {statement : Node} {context : Context}

/-- A statement that passes on what comes of its formula is in step as the formula is. -/
theorem IsFormula.effect_cases {formula : Node} {onValue : Value → Effect}
    {onKind : Value.Kind → Kinds} (h : formula.IsFormula)
    (hformula : statement.formula? = some formula)
    (heffect : statement.effect context = (formula.outcome context.scope).map onValue)
    (hstep : context.scope.kinds.step statement =
      (formula.infer context.scope.kinds).map onKind)
    (hkind : ∀ value, onKind value.kind = (onValue value).context.scope.kinds) :
    (∃ effect, statement.effect context = .ok effect ∧
      context.scope.kinds.step statement = .ok effect.context.scope.kinds) ∨
    (∃ failure, statement.effect context = .error failure.fault ∧
      statement.FailsAt context.scope failure ∧ failure.fault.IsOfKinds ∧
      context.scope.kinds.step statement = .error failure) ∨
    ∃ fault, statement.effect context = .error fault ∧ fault.IsOfValues := by
  rw [heffect, hstep]
  rcases h.locate_cases context.scope with
    ⟨value, houtcome, hinfer⟩ | ⟨failure, houtcome, hlocate, hkinds, hinfer⟩ |
      ⟨fault, houtcome, hvalues⟩
  · rw [houtcome, hinfer]
    exact .inl ⟨_, rfl, congrArg Except.ok (hkind value)⟩
  · rw [houtcome, hinfer]
    exact .inr (.inl ⟨failure, rfl, ⟨formula, hformula, hlocate⟩, hkinds, rfl⟩)
  · rw [houtcome]
    exact .inr (.inr ⟨fault, rfl, hvalues⟩)

/-- The effect of a statement leaves the kinds that were inferred, or is prevented by the fault on
kinds, or by one of values. -/
theorem IsStatement.effect_cases (h : statement.IsStatement) (context : Context) :
    (∃ effect, statement.effect context = .ok effect ∧
      context.scope.kinds.step statement = .ok effect.context.scope.kinds) ∨
    (∃ failure, statement.effect context = .error failure.fault ∧
      statement.FailsAt context.scope failure ∧ failure.fault.IsOfKinds ∧
      context.scope.kinds.step statement = .error failure) ∨
    ∃ fault, statement.effect context = .error fault ∧ fault.IsOfValues := by
  cases h with
  | assign _ _ hvalue =>
    exact hvalue.effect_cases rfl rfl rfl fun value => (Scope.kinds_define _ _ value).symm
  | @defineAlias keyword key shown form hkeyword hkey hform =>
    -- keys and aliases that are names are not looked up
    cases form with
    | number => exact absurd rfl hform
    | _ => exact .inl ⟨_, rfl, rfl⟩
  | print _ hoperand => exact hoperand.effect_cases rfl rfl rfl fun _ => rfl
  | @printAlias operator operand _ hoperand =>
    by_cases hword : ∃ name, operand = leaf .word name
    · obtain ⟨name, rfl⟩ := hword
      exact .inl ⟨_, rfl, rfl⟩
    · -- any other formula is asked for its value
      have hother : ∀ name, operand ≠ leaf .word name := fun name h => hword ⟨name, h⟩
      have heffect : (Node.printAlias operator operand).effect context =
          (operand.outcome context.scope).map fun value =>
            { context, line? := some (context.aliases.shown value.toText) } := by
        rw [effect, nameIn_of_ne_word hother]
        cases operand.outcome context.scope <;> rfl
      have hstep : context.scope.kinds.step (Node.printAlias operator operand) =
          (operand.infer context.scope.kinds).map fun _ => context.scope.kinds := by
        rw [Kinds.step, inferName_of_ne_word hother]
        cases operand.infer context.scope.kinds <;> rfl
      exact hoperand.effect_cases rfl heffect hstep fun _ => rfl

variable {σ : Type} [Sink σ]

/-- **Statements in step.** A statement succeeds on values and on kinds, fails on both at the same
token, or fails on values alone. -/
theorem IsStatement.step_cases (h : statement.IsStatement) (machine : Machine σ) :
    (∃ value? after, statement.evaluate.runOn machine = (.ok value?, after) ∧
      machine.context.scope.kinds.step statement = .ok after.context.scope.kinds) ∨
    (∃ failure after, statement.evaluate.runOn machine = (.error failure.fault, after) ∧
      statement.FailsAt machine.context.scope failure ∧ failure.fault.IsOfKinds ∧
      machine.context.scope.kinds.step statement = .error failure) ∨
    ∃ fault after, statement.evaluate.runOn machine = (.error fault, after) ∧
      fault.IsOfValues := by
  rcases h.evaluate_cases machine with
    ⟨fault, heffect, hfails⟩ | ⟨effect, after, heffect, hcontext, hok | ⟨reason, hrefused⟩⟩
  · rcases h.effect_cases machine.context with
      ⟨effect, heffect', _⟩ | ⟨failure, heffect', hfailsAt, hkinds, hstep⟩ |
        ⟨fault', heffect', hvalues⟩
    · rw [heffect] at heffect'
      cases heffect'
    · obtain rfl := Except.error.inj (heffect.symm.trans heffect')
      exact .inr (.inl ⟨failure, machine, hfails, hfailsAt, hkinds, hstep⟩)
    · obtain rfl := Except.error.inj (heffect.symm.trans heffect')
      exact .inr (.inr ⟨fault, machine, hfails, hvalues⟩)
  · rcases h.effect_cases machine.context with
      ⟨effect', heffect', hstep⟩ | ⟨failure, heffect', _⟩ | ⟨fault, heffect', _⟩
    · obtain rfl := Except.ok.inj (heffect.symm.trans heffect')
      exact .inl ⟨effect.value?, after, hok, by rw [hstep, hcontext]⟩
    · rw [heffect] at heffect'
      cases heffect'
    · rw [heffect] at heffect'
      cases heffect'
  · -- the sink refuses the line, whatever its kind
    exact .inr (.inr ⟨.sink reason, after, hrefused, trivial⟩)

end Node

end EmojiScript
