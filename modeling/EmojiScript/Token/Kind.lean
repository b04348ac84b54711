namespace EmojiScript

/-!
# Kinds of token

The fifteen kinds, and the catalog: the order in which a scanner tries them.  The order matters
for the three keywords only, which are lowercase words and have to be tried before `word`.
-/

/-- What a piece of text is. -/
inductive Kind where
  /-- A run of blanks; a scanner reads it and reports nothing. -/
  | space
  | print
  | ejprint
  | ejkey
  | equals
  | plus
  | minus
  | openParen
  | closeParen
  | semicolon
  /-- Text in double quotes, the quotes included. -/
  | text
  /-- One character above the Basic Multilingual Plane. -/
  | emoji
  /-- A run of decimal digits. -/
  | number
  /-- A run of lowercase letters: a variable or the key of an alias. -/
  | word
  | hash
deriving DecidableEq, Repr, Inhabited

namespace Kind

/-- Every kind, in the order in which a scanner tries them. -/
def catalog : List Kind :=
  [space, print, ejprint, ejkey, equals, plus, minus, openParen, closeParen, semicolon, text,
   emoji, number, word, hash]

theorem mem_catalog (kind : Kind) : kind ∈ catalog := by
  cases kind <;> decide

theorem nodup_catalog : catalog.Nodup := by decide

/-- The label under which a token of this kind is shown. -/
def label : Kind → String
  | space => "SPACE"
  | print => "PRINT"
  | ejprint => "EJPRINT"
  | ejkey => "EJKEY"
  | equals => "ASSIGN"
  | plus => "PLUS"
  | minus => "MINUS"
  | openParen => "LPAR"
  | closeParen => "RPAR"
  | semicolon => "SEMICOLON"
  | text => "STRING"
  | emoji => "EMOJI"
  | number => "NUMBER"
  | word => "VARIABLE"
  | hash => "HASH"

/-- The kind that is shown under `label`. -/
def ofLabel? (label : String) : Option Kind :=
  catalog.find? (·.label == label)

@[simp] theorem ofLabel?_label (kind : Kind) : ofLabel? kind.label = some kind := by
  cases kind <;> decide

end Kind

end EmojiScript
