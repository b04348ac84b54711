import EmojiScript.Evaluation.Basic
import EmojiScript.Parser.Basic
import EmojiScript.Scanner

namespace EmojiScript

/-!
# From text to run

A text is scanned, then read as a program, then run; each stage begins only where the one before
it has succeeded on the whole text, so a text with a static fault prints nothing.

- `compile`: the program that a text is.
- `Machine.runSource`: a text run on a given machine.
- `runSource`: a text run on a fresh context.
-/

/-- The program that runs when no other is given. -/
def demoSource : String :=
  "cat = 5 + 9 + ( 4 - 6)#;\n" ++
  "print cat#;\n" ++
  "ejprint love#;\n" ++
  "ejprint santa#;\n" ++
  "pasha = cat + 3#;\n" ++
  "print pasha + cat - 6#;\n" ++
  "ejkey cat 😺#;\n" ++
  "ejkey valentine \"i love you\"#;\n" ++
  "ejprint cat#;\n" ++
  "ejprint valentine#;\n"

/-- The program that a text is, or its first fault. -/
def compile (source : String) : Except Fault Node := do
  parse (← tokenize source)

variable {σ : Type} [Sink σ]

/-- Runs a text on a machine, which a static fault leaves as it is. -/
def Machine.runSource (machine : Machine σ) (source : String) : Except Fault Unit × Machine σ :=
  match compile source with
  | .ok program => program.run.runOn machine
  | .error fault => (.error fault, machine)

/-- Runs a text on a fresh context and gives the context that it leaves, with the sink. -/
def runSource (source : String) (sink : σ) : Except Fault Context × σ :=
  let (result, machine) := Machine.runSource { sink } source
  (result.map fun _ => machine.context, machine.sink)

end EmojiScript
