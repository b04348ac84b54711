import EmojiScript.Text.Location
import EmojiScript.Token.Kind

namespace EmojiScript

/-!
# Tokens

A token is a piece of a text: its kind, its characters and the place where it begins.  Tokens may
also be made by hand, with any text at any place.
-/

/-- A piece of a text. -/
structure Token where
  kind : Kind
  /-- The characters of the token, quotes included. -/
  text : String
  /-- The place of the first character. -/
  location : Location
deriving DecidableEq, Repr, Inhabited

namespace Token

/-- The line on which the token begins. -/
def line (token : Token) : Nat := token.location.line

/-- The place just behind the token.  Its line stays the one on which the token begins, also where
the text of the token runs over several lines. -/
def stop (token : Token) : Location where
  position := token.location.position + token.text.utf8ByteSize
  line := token.location.line

/-- The token as a listing shows it: its kind, a space, its text. -/
def display (token : Token) : String := token.kind.label ++ " " ++ token.text

end Token

end EmojiScript
