import EmojiScript.Fault
import EmojiScript.Proofs.Text.Mark
import EmojiScript.Tree.Basic

namespace EmojiScript

/-!
# Moving places

Text that is put elsewhere keeps its tokens, its tree and its faults but for the places that they
name.  A relocation says where places go, positions and lines each by themselves, because the
faults of a run name a line without a position.

* `Relocation.behind` — a text is put behind another one.
* `Relocation.nowhere` — all places are forgotten.
* `Token.relocate`, `Node.relocate`, `Fault.relocate` — whatever names a place.
-/

/-- Where places go, positions and lines each by themselves. -/
structure Relocation where
  position : Nat → Nat
  line : Nat → Nat

/-- Places of a text go to where they are when it is put behind `before`. -/
def Relocation.behind (before : String) : Relocation where
  position offset := before.utf8ByteSize + offset
  line number := newlines before + number

/-- All places become one. -/
def Relocation.nowhere : Relocation where
  position _ := 0
  line _ := 0

variable (move : Relocation)

/-! ### Places and tokens -/

def Location.relocate (location : Location) : Location where
  position := move.position location.position
  line := move.line location.line

/-- The place before a text becomes the place at which the text in front of it ends. -/
theorem Location.relocate_behind_start (before : String) :
    Location.start.relocate (.behind before) = Location.start.after before := by
  simp [Location.relocate, Relocation.behind, Location.after, Location.start, newlines_eq_count,
    Nat.add_comm]

/-- Text takes as much room behind another one as anywhere. -/
theorem Location.relocate_behind_after (before : String) (location : Location) (text : String) :
    (location.after text).relocate (.behind before) =
      (location.relocate (.behind before)).after text := by
  simp [Location.relocate, Relocation.behind, Location.after, Nat.add_assoc]

def Token.relocate (token : Token) : Token :=
  { token with location := token.location.relocate move }

@[simp] theorem Token.kind_relocate (token : Token) : (token.relocate move).kind = token.kind := rfl

@[simp] theorem Token.text_relocate (token : Token) : (token.relocate move).text = token.text := rfl

theorem Token.stop_relocate_behind (before : String) (token : Token) :
    (token.relocate (.behind before)).stop = token.stop.relocate (.behind before) := by
  simp [Token.stop, Token.relocate, Location.relocate, Relocation.behind, Nat.add_assoc]

/-! ### Trees -/

namespace Node

mutual

/-- The tree with its tokens elsewhere. -/
def relocate : Node → Node
  | leaf form token => leaf form (token.relocate move)
  | formula op operator left right =>
    formula op (operator.relocate move) left.relocate right.relocate
  | assign operator target value =>
    assign (operator.relocate move) target.relocate value.relocate
  | defineAlias operator key shown =>
    defineAlias (operator.relocate move) key.relocate shown.relocate
  | print operator operand => print (operator.relocate move) operand.relocate
  | printAlias operator operand => printAlias (operator.relocate move) operand.relocate
  | program statements => program (relocateAll statements)

/-- Trees with their tokens elsewhere. -/
def relocateAll : List Node → List Node
  | [] => []
  | statement :: rest => statement.relocate :: relocateAll rest

end

@[simp] theorem relocateAll_eq_map (statements : List Node) :
    relocateAll move statements = statements.map (relocate move) := by
  induction statements with
  | nil => rfl
  | cons statement rest ih => rw [relocateAll, ih, List.map_cons]

end Node

/-! ### Faults -/

def TypeFault.relocate : TypeFault → TypeFault
  | sum left right line => sum left right (move.line line)
  | difference operator left right line => difference operator left right (move.line line)
  | worded text => worded text

def RuntimeFault.relocate : RuntimeFault → RuntimeFault
  | valueless line => valueless (move.line line)
  | notAssignable line => notAssignable (move.line line)
  | overflow operator line => overflow operator (move.line line)
  | worded text => worded text

/-- The fault that names a place elsewhere.  Faults without a place stay as they are. -/
def Fault.relocate : Fault → Fault
  | lex location found => lex (location.relocate move) found
  | parse location expected => parse (location.relocate move) expected
  | type fault => type (fault.relocate move)
  | runtime fault => runtime (fault.relocate move)
  | fault => fault

end EmojiScript
