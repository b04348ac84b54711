namespace EmojiScript

/-!
# Places in a text

A place is counted in two ways at once: the bytes that stand before it in UTF-8, and its line,
the first line being line 1.  `Location.after` moves a place over a piece of text; moving over
two pieces is moving over their concatenation.
-/

/-- A place in a text: the bytes before it, and the line it stands on. -/
structure Location where
  position : Nat := 0
  line : Nat := 1
deriving DecidableEq, Repr, Inhabited

namespace Location

/-- The place before the first character. -/
def start : Location := {}

/-- The place at which `text` ends when it begins at `location`. -/
def after (location : Location) (text : String) : Location where
  position := location.position + text.utf8ByteSize
  line := location.line + text.toList.count '\n'

@[simp] theorem position_after (location : Location) (text : String) :
    (location.after text).position = location.position + text.utf8ByteSize := rfl

@[simp] theorem line_after (location : Location) (text : String) :
    (location.after text).line = location.line + text.toList.count '\n' := rfl

@[simp] theorem after_empty (location : Location) : location.after "" = location := by
  simp [after]

theorem after_append (location : Location) (text more : String) :
    location.after (text ++ more) = (location.after text).after more := by
  simp [after, Nat.add_assoc]

end Location

end EmojiScript
