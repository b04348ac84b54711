import EmojiScript.Parser.Expectation
import EmojiScript.Text.Location
import EmojiScript.Text.Utf8
import EmojiScript.Value

namespace EmojiScript

/-!
# Faults

Everything that can go wrong between a text and the lines it prints.  A fault holds its cause;
`Fault.message` alone holds the wording.

- `Fault`: the causes.
- `Fault.isStatic`: a fault of the text itself, found before anything runs.
-/

/-- Operands of kinds that an operator does not take. -/
inductive TypeFault where
  /-- A sum takes two numbers or two strings. -/
  | sum (left right : Value.Kind) (line : Nat)
  /-- A difference takes two numbers; the operator is named as it was written. -/
  | difference (operator : String) (left right : Value.Kind) (line : Nat)
  /-- A fault in the caller's own words. -/
  | worded (text : String)
deriving DecidableEq, Repr, Inhabited

/-- The wording of a type fault. -/
def TypeFault.text : TypeFault → String
  | sum left right line =>
    let left := left.name
    let right := right.name
    s!"Operands of '+' must be two numbers or two strings, got {left} and {right} [line {line}]"
  | difference operator left right line =>
    let left := left.name
    let right := right.name
    s!"Operands of '{operator}' must be numbers, got {left} and {right} [line {line}]"
  | worded text => text

/-- What else can stop an evaluation. -/
inductive RuntimeFault where
  /-- A statement that produces nothing stands where a value is needed. -/
  | valueless (line : Nat)
  /-- Something other than a name is assigned to. -/
  | notAssignable (line : Nat)
  /-- A sum or difference does not fit 64 bits. -/
  | overflow (operator : String) (line : Nat)
  /-- A fault in the caller's own words. -/
  | worded (text : String)
deriving DecidableEq, Repr, Inhabited

/-- The wording of a runtime fault. -/
def RuntimeFault.text : RuntimeFault → String
  | valueless line => s!"Statement used as a value [line {line}]"
  | notAssignable line => s!"Invalid assignment target [line {line}]"
  | overflow operator line => s!"Integer overflow in '{operator}' [line {line}]"
  | worded text => text

/-- Why a text was not scanned, not read as a program, or not run to its end. -/
inductive Fault where
  /-- No token begins with the character at this place. -/
  | lex (location : Location) (found : Char)
  /-- The program does not go on as it has to at this place. -/
  | parse (location : Location) (expected : Expectation)
  /-- A variable was read that no assignment had stored. -/
  | undefinedVariable (name : String)
  /-- A numeral is none, or its value does not fit 64 bits. -/
  | invalidNumber (text : String)
  /-- Operands of kinds that an operator does not take. -/
  | type (fault : TypeFault)
  /-- Any other failure of an evaluation. -/
  | runtime (fault : RuntimeFault)
  /-- The sink refused to write or to flush, and gave this reason. -/
  | sink (reason : String)
  /-- The bytes of a text are not UTF-8. -/
  | encoding (fault : Utf8.Fault)
deriving DecidableEq, Repr, Inhabited

namespace Fault

/-- The words before what is wrong with a place in the text. -/
def placed (location : Location) : String :=
  let line := location.line
  let position := location.position
  s!"[line {line}, position {position}] Error: "

/-- What is said of a fault. -/
def message : Fault → String
  | lex location found => placed location ++ "Unexpected character: " ++ found.toString
  | parse location expected => placed location ++ "Expected " ++ expected.text
  | undefinedVariable name => s!"Runtime error: Undefined variable '{name}'"
  | invalidNumber text => s!"Runtime error: Invalid number literal '{text}'"
  | type fault => "Type error: " ++ fault.text
  | runtime fault => "Runtime error: " ++ fault.text
  | sink reason => reason
  | encoding fault => fault.message

/-- A fault of the text itself, found before anything runs. -/
def isStatic : Fault → Bool
  | lex .. | parse .. => true
  | _ => false

end Fault

end EmojiScript
