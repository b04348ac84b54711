import EmojiScript.Context
import EmojiScript.Fault
import EmojiScript.Sink

namespace EmojiScript

/-!
# Effects of an evaluation

An evaluation reads and changes a context, writes to a sink, and may stop with a fault.  A fault
keeps the context and the sink as they were when it arose.

- `Machine`: a context and the state of a sink.
- `Eval`: evaluations, with `Eval.runOn` to run one.
- `Eval.runOn_bind` and its like: what each effect does to a machine.
-/

/-- What an evaluation works on: a context, and a sink in one of its states. -/
structure Machine (σ : Type) where
  context : Context := {}
  sink : σ
deriving Inhabited

/-- An evaluation that produces an `α` or a fault, and leaves a machine in either case. -/
abbrev Eval (σ α : Type) := ExceptT Fault (StateM (Machine σ)) α

namespace Eval

variable {σ α : Type}

/-- Runs an evaluation on a machine. -/
def runOn (eval : Eval σ α) (machine : Machine σ) : Except Fault α × Machine σ :=
  (ExceptT.run eval).run machine

@[simp] theorem runOn_pure (a : α) (machine : Machine σ) :
    runOn (pure a) machine = (.ok a, machine) := rfl

@[simp] theorem runOn_throw (fault : Fault) (machine : Machine σ) :
    runOn (throw fault : Eval σ α) machine = (.error fault, machine) := rfl

/-- The second evaluation runs on the machine that the first leaves, unless that stops. -/
theorem runOn_bind {β : Type} (eval : Eval σ α) (next : α → Eval σ β) (machine : Machine σ) :
    runOn (eval >>= next) machine =
      match eval.runOn machine with
      | (.ok a, machine) => (next a).runOn machine
      | (.error fault, machine) => (.error fault, machine) := by
  simp only [runOn, ExceptT.run_bind, StateT.run_bind]
  cases h : (ExceptT.run eval).run machine with
  | mk result machine => cases result <;> rfl

/-- Evaluations that do the same to every machine are the same. -/
theorem ext_runOn {a b : Eval σ α} (h : ∀ machine, a.runOn machine = b.runOn machine) : a = b :=
  funext h

/-! ### Effects -/

/-- A result or a fault, without any effect. -/
def ofExcept (result : Except Fault α) : Eval σ α := ExceptT.mk (pure result)

@[simp] theorem runOn_ofExcept (result : Except Fault α) (machine : Machine σ) :
    (ofExcept result).runOn machine = (result, machine) := rfl

/-- The value of a variable. -/
def lookup (name : String) : Eval σ Value := do
  match (← get).context.scope.get? name with
  | some value => pure value
  | none => throw (.undefinedVariable name)

theorem runOn_lookup (name : String) (machine : Machine σ) :
    (lookup name).runOn machine =
      match machine.context.scope.get? name with
      | some value => (.ok value, machine)
      | none => (.error (.undefinedVariable name), machine) := by
  show runOn (match machine.context.scope.get? name with
    | some value => pure value
    | none => throw (.undefinedVariable name)) machine = _
  cases machine.context.scope.get? name <;> rfl

/-- Stores the value of a variable. -/
def define (name : String) (value : Value) : Eval σ Unit :=
  modify fun machine => { machine with context := machine.context.define name value }

@[simp] theorem runOn_define (name : String) (value : Value) (machine : Machine σ) :
    (define name value).runOn machine =
      (.ok (), { machine with context := machine.context.define name value }) := rfl

/-- What is shown for a key. -/
def shown (key : String) : Eval σ String := do
  return (← get).context.aliases.shown key

@[simp] theorem runOn_shown (key : String) (machine : Machine σ) :
    (shown key).runOn machine = (.ok (machine.context.aliases.shown key), machine) := rfl

/-- Gives a key its alias. -/
def defineAlias (key text : String) : Eval σ Unit :=
  modify fun machine => { machine with context := machine.context.defineAlias key text }

@[simp] theorem runOn_defineAlias (key text : String) (machine : Machine σ) :
    (defineAlias key text).runOn machine =
      (.ok (), { machine with context := machine.context.defineAlias key text }) := rfl

/-- An evaluation that asks something of the sink alone. -/
def onSink (ask : σ → Except String Unit × σ) : Eval σ Unit :=
  ExceptT.mk fun ⟨context, sink⟩ =>
    let (result, sink) := ask sink
    (result.mapError Fault.sink, ⟨context, sink⟩)

@[simp] theorem runOn_onSink (ask : σ → Except String Unit × σ) (machine : Machine σ) :
    (onSink ask).runOn machine =
      ((ask machine.sink).1.mapError Fault.sink, { machine with sink := (ask machine.sink).2 }) :=
  rfl

variable [Sink σ]

/-- Writes a text. -/
def write (text : String) : Eval σ Unit := onSink fun sink => Sink.write sink text.toUTF8

/-- Writes a text, and then a line break. -/
def writeLine (text : String) : Eval σ Unit := do
  write text
  write "\n"

/-- Flushes the sink. -/
def flush : Eval σ Unit := onSink Sink.flush

end Eval

end EmojiScript
