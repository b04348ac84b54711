import EmojiScript.Command

/-!
# The command line

Reads the file that is named, executes the command and writes what it has to say.
-/

namespace EmojiScript

/-- What to type. -/
def usage : String :=
  "Usage: emojiscript [--log] tokenize [FILE]\n" ++
  "       emojiscript [--log] parse [--json] [FILE]\n" ++
  "       emojiscript [--log] run [FILE]\n"

/-- Reads the input that is named, or the demo where none is. -/
def Input.read (name? : Option String) : IO Input := do
  match name? with
  | none => return .demo
  | some name =>
    try
      return .file name (← IO.FS.readBinFile name)
    catch
      | .noFileOrDirectory .. => return .unopened name Input.noSuchFile
      | e => return .unopened name (toString e)

/-- Writes out an outcome and gives its status. -/
def Outcome.deliver (outcome : Outcome) : IO UInt32 := do
  if outcome.logged then
    IO.FS.writeFile "app.log" s!"finished with status {outcome.status}\n"
  let stdout ← IO.getStdout
  stdout.write outcome.stdout
  stdout.flush
  IO.eprint outcome.stderr
  return outcome.status.toUInt32

/-- Executes the command that the words of a command line ask for. -/
def executeArgs (args : List String) : IO UInt32 := do
  match Invocation.ofArgs? args with
  | some (invocation, name?) => (invocation.execute (← Input.read name?)).deliver
  | none =>
    IO.eprint usage
    return 2

end EmojiScript

def main (args : List String) : IO UInt32 :=
  EmojiScript.executeArgs args
