import EmojiScript.Json.Basic
import EmojiScript.Tree.Basic

namespace EmojiScript

/-!
# Trees as JSON documents

A token is an object of its kind, text and place.  A node is an object with a single field that
names its form; the four forms with two parts share one name, and so do the two forms with one,
and tell themselves apart by an operation.
-/

/-- The document of a token. -/
def Token.toJson (token : Token) : Json :=
  .object [("kind", .string token.kind.label), ("text", .string token.text),
    ("position", .number token.location.position), ("line", .number token.line)]

/-- The name of a leaf's form. -/
def Leaf.label : Leaf → String
  | number => "Number"
  | text => "Str"
  | emoji => "Emoji"
  | word => "Variable"

/-- The name of an operation. -/
def Arithmetic.label : Arithmetic → String
  | add => "Add"
  | sub => "Sub"

namespace Node

/-- The document of a node with two parts. -/
def binaryJson (op : String) (operator : Token) (left right : Json) : Json :=
  .object [("Binary", .object [("op", .string op), ("operator", operator.toJson),
    ("left", left), ("right", right)])]

/-- The document of a node with one part. -/
def unaryJson (op : String) (operator : Token) (operand : Json) : Json :=
  .object [("Unary", .object [("op", .string op), ("operator", operator.toJson),
    ("operand", operand)])]

mutual

/-- The document of a tree. -/
def toJson : Node → Json
  | leaf form token => .object [(form.label, token.toJson)]
  | formula op operator left right => binaryJson op.label operator left.toJson right.toJson
  | assign operator target value => binaryJson "Assign" operator target.toJson value.toJson
  | defineAlias operator key shown => binaryJson "AliasDefine" operator key.toJson shown.toJson
  | print operator operand => unaryJson "Print" operator operand.toJson
  | printAlias operator operand => unaryJson "EjPrint" operator operand.toJson
  | program statements => .object [("Program", .array (toJsons statements))]

/-- The documents of statements. -/
def toJsons : List Node → List Json
  | [] => []
  | statement :: rest => statement.toJson :: toJsons rest

end

end Node

end EmojiScript
