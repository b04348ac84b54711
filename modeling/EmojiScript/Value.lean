namespace EmojiScript

/-!
# Values

A value is a 64-bit integer or a text.  There is no third kind: a statement that produces
nothing produces no value at all.
-/

/-- What a formula evaluates to. -/
inductive Value where
  | int (n : Int64)
  | text (s : String)
deriving DecidableEq, Repr, Inhabited

namespace Value

/-- The two kinds of value, which `+` and `-` never mix. -/
inductive Kind where
  | number
  | string
deriving DecidableEq, Repr, Inhabited

/-- The name of a kind in messages. -/
def Kind.name : Kind → String
  | number => "number"
  | string => "string"

/-- The kind of a value. -/
def kind : Value → Kind
  | int _ => .number
  | text _ => .string

/-- The text of a value, as it is printed and as an alias keeps it: an integer in decimal, a text
as it is. -/
def toText : Value → String
  | int n => n.toInt.repr
  | text s => s

@[simp] theorem kind_int (n : Int64) : (int n).kind = .number := rfl

@[simp] theorem kind_text (s : String) : (text s).kind = .string := rfl

@[simp] theorem toText_text (s : String) : (text s).toText = s := rfl

end Value

end EmojiScript
