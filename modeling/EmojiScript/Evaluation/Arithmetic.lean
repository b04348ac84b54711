import EmojiScript.Fault
import EmojiScript.Numeral
import EmojiScript.Tree.Basic

namespace EmojiScript

/-!
# Operations on values

`+` adds two numbers or joins two texts, `-` subtracts two numbers, and nothing is converted.  A
result that does not fit 64 bits is a fault, which names the operator as it was written.
-/

namespace Arithmetic

/-- The operation on integers in 64 bits, where its result fits. -/
def words? : Arithmetic → Int64 → Int64 → Option Int64
  | add => Numeral.add?
  | sub => Numeral.sub?

/-- The fault of operands of kinds that the operation does not take. -/
def mismatch (op : Arithmetic) (operator : Token) (left right : Value.Kind) : Fault :=
  match op with
  | add => .type (.sum left right operator.line)
  | sub => .type (.difference operator.text left right operator.line)

/-- The operation on values. -/
def apply (op : Arithmetic) (operator : Token) : Value → Value → Except Fault Value
  | .int a, .int b =>
    match op.words? a b with
    | some n => .ok (.int n)
    | none => .error (.runtime (.overflow operator.text operator.line))
  | .text a, .text b =>
    match op with
    | add => .ok (.text (a ++ b))
    | sub => .error (op.mismatch operator .string .string)
  | left, right => .error (op.mismatch operator left.kind right.kind)

end Arithmetic

end EmojiScript
