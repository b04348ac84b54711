import EmojiScript.Program
import EmojiScript.Text.Utf8
import EmojiScript.Tree.Document
import EmojiScript.Tree.SExpr

namespace EmojiScript

/-!
# Commands

Three commands work on the text of a file, or on the demo program where no file is named: one
lists the tokens, one shows the tree, one runs the program.  What a command does is an outcome: a
status, the bytes on the standard output and the text on the standard error.

- `Command.execute`: the outcome of a command on an input.
- `Invocation.execute`: the same for a command line.
-/

/-- What to do with a text. -/
inductive Command where
  /-- List its tokens. -/
  | tokenize
  /-- Show its tree, as an S-expression or as JSON. -/
  | parse (json : Bool)
  /-- Run it. -/
  | run
deriving DecidableEq, Repr, Inhabited

/-- Where the text comes from. -/
inductive Input where
  /-- No file was named. -/
  | demo
  /-- A file with these bytes. -/
  | file (name : String) (bytes : ByteArray)
  /-- A file that could not be opened, and the reason. -/
  | unopened (name reason : String)
deriving Inhabited

/-- The reason for which a file that does not exist cannot be opened. -/
def Input.noSuchFile : String := "No such file or directory (os error 2)"

/-- A report of a failure and of what caused it. -/
def report (failure cause : String) : String :=
  "Error: " ++ failure ++ "\n\nCaused by:\n    " ++ cause ++ "\n"

/-- The text of an input, or a report that it has none. -/
def Input.source : Input → Except String String
  | demo => .ok demoSource
  | file name bytes =>
    match Utf8.decode bytes with
    | .ok text => .ok text
    | .error fault => .error (report s!"File \"{name}\" is not valid UTF-8" fault.message)
  | unopened name reason => .error (report s!"Failed to open file \"{name}\"" reason)

/-- What a command has done. -/
structure Outcome where
  /-- Zero where all went well. -/
  status : Nat := 0
  stdout : ByteArray := .empty
  stderr : String := ""
  /-- A log was kept. -/
  logged : Bool := false
deriving Inhabited

/-- The status with which a fault ends a command: static faults have one of their own. -/
def Fault.status (fault : Fault) : Nat := if fault.isStatic then 65 else 70

namespace Outcome

/-- A command that has written `stdout` and come to its end. -/
def success (stdout : ByteArray) : Outcome := { stdout }

/-- A command that has written `stdout` and stopped with a fault. -/
def failure (stdout : ByteArray) (fault : Fault) : Outcome where
  status := fault.status
  stdout := stdout
  stderr := fault.message ++ "\n"

/-- A command that had no text to work on. -/
def noInput (report : String) : Outcome where
  status := 1
  stderr := report

/-- A command that has written `stdout` and come to its end or stopped with a fault. -/
def ofFault? (stdout : ByteArray) : Option Fault → Outcome
  | none => success stdout
  | some fault => failure stdout fault

end Outcome

namespace Command

/-- The lines that list tokens. -/
def listing (tokens : List Token) : String :=
  String.join (tokens.map fun token => token.display ++ "\n")

/-- The text that shows a tree. -/
def rendering (json : Bool) (program : Node) : String :=
  (if json then program.toJson.pretty else program.sexpr) ++ "\n"

/-- The outcome of a command on a text. -/
def onSource (command : Command) (source : String) : Outcome :=
  match command with
  | tokenize =>
    let (tokens, fault?) := (Scanner.ofString source).collect
    Outcome.ofFault? (listing tokens).toUTF8 fault?
  | parse json =>
    match compile source with
    | .ok program => .success (rendering json program).toUTF8
    | .error fault => .failure .empty fault
  | run =>
    match runSource source ({} : Buffer) with
    | (.ok _, sink) => .success sink.bytes
    | (.error fault, sink) => .failure sink.bytes fault

/-- The outcome of a command on an input. -/
def execute (command : Command) (input : Input) : Outcome :=
  match input.source with
  | .ok source => command.onSource source
  | .error report => .noInput report

end Command

/-! ### Command lines -/

/-- A command, and whether a log is to be kept. -/
structure Invocation where
  command : Command
  log : Bool := false
deriving DecidableEq, Repr, Inhabited

namespace Invocation

/-- The outcome of an invocation on an input. -/
def execute (invocation : Invocation) (input : Input) : Outcome :=
  { invocation.command.execute input with logged := invocation.log }

/-- The invocation that the words of a command line ask for, and the name of the file if they name
one. -/
def ofArgs? (args : List String) : Option (Invocation × Option String) :=
  let log := args.contains "--log"
  match args.filter (· ≠ "--log") with
  | "tokenize" :: names => withFile? ⟨.tokenize, log⟩ names
  | "parse" :: rest =>
    let json := rest.contains "--json"
    withFile? ⟨.parse json, log⟩ (rest.filter (· ≠ "--json"))
  | "run" :: names => withFile? ⟨.run, log⟩ names
  | _ => none
where
  /-- An invocation with at most one name of a file behind it. -/
  withFile? (invocation : Invocation) : List String → Option (Invocation × Option String)
    | [] => some (invocation, none)
    | [name] => if name.startsWith "--" then none else some (invocation, some name)
    | _ => none

end Invocation

end EmojiScript
