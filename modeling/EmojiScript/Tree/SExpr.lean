import EmojiScript.Tree.Basic

namespace EmojiScript

/-!
# Trees as S-expressions

A leaf is written as its text, every other node in parentheses behind its operation, as in
`(= cat (+ 5 9))` and `(ejprint love)`.  A program is written as its statements, one behind the
other with a line break between them.
-/

/-- The sign of an operation. -/
def Arithmetic.sign : Arithmetic → String
  | add => "+"
  | sub => "-"

namespace Node

mutual

/-- The S-expression of a tree. -/
def sexpr : Node → String
  | leaf _ token => token.text
  | formula op _ left right => "(" ++ op.sign ++ " " ++ left.sexpr ++ " " ++ right.sexpr ++ ")"
  | assign _ target value => "(= " ++ target.sexpr ++ " " ++ value.sexpr ++ ")"
  | defineAlias _ key shown => "(ejkey " ++ key.sexpr ++ " " ++ shown.sexpr ++ ")"
  | print _ operand => "(print " ++ operand.sexpr ++ ")"
  | printAlias _ operand => "(ejprint " ++ operand.sexpr ++ ")"
  | program statements => sexprs statements

/-- The S-expressions of statements, with a line break between each and the next. -/
def sexprs : List Node → String
  | [] => ""
  | [statement] => statement.sexpr
  | statement :: next :: rest => statement.sexpr ++ "\n" ++ sexprs (next :: rest)

end

end Node

end EmojiScript
