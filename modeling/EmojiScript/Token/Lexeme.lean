import EmojiScript.Text.Blank
import EmojiScript.Token.Kind

namespace EmojiScript

/-!
# The text a kind accepts

`Kind.lexeme kind rest` is the longest beginning of `rest` that is a token of `kind`, and empty
where there is none.  `Kind.find?` asks the kinds of a list in turn and takes the first whose
lexeme is not empty, however long the lexemes of the later ones are.

- `Kind.lexeme_append_drop`: a lexeme is a beginning of the text it was found in.
- `Kind.find?_eq_some`: what is found is a lexeme of the kind, and not empty.
-/

namespace Kind

/-- The spelling of a keyword or mark, where `rest` begins with it. -/
def literal (spelling rest : List Char) : List Char :=
  if spelling.isPrefixOf rest then spelling else []

/-- The text from an opening quote to the next quote.  A quote cannot be escaped, and one that is
never closed begins nothing. -/
def quoted : List Char → List Char
  | '"' :: rest => if '"' ∈ rest then '"' :: rest.takeWhile (· ≠ '"') ++ ['"'] else []
  | _ => []

/-- The first character where it lies above the Basic Multilingual Plane. -/
def glyph : List Char → List Char
  | c :: _ => if 0x10000 ≤ c.toNat then [c] else []
  | [] => []

/-- The longest beginning of `rest` that this kind accepts, empty where there is none. -/
def lexeme (kind : Kind) (rest : List Char) : List Char :=
  match kind with
  | space => rest.takeWhile isBlank
  | print => literal ['p', 'r', 'i', 'n', 't'] rest
  | ejprint => literal ['e', 'j', 'p', 'r', 'i', 'n', 't'] rest
  | ejkey => literal ['e', 'j', 'k', 'e', 'y'] rest
  | equals => literal ['='] rest
  | plus => literal ['+'] rest
  | minus => literal ['-'] rest
  | openParen => literal ['('] rest
  | closeParen => literal [')'] rest
  | semicolon => literal [';'] rest
  | text => quoted rest
  | emoji => glyph rest
  | number => rest.takeWhile Char.isDigit
  | word => rest.takeWhile Char.isLower
  | hash => literal ['#'] rest

/-! ### A lexeme begins its text -/

theorem literal_append_drop (spelling rest : List Char) :
    literal spelling rest ++ rest.drop (literal spelling rest).length = rest := by
  unfold literal
  split
  next h =>
    obtain ⟨tail, rfl⟩ := List.isPrefixOf_iff_prefix.1 h
    simp
  next => simp

theorem takeWhile_append_drop (p : Char → Bool) (rest : List Char) :
    rest.takeWhile p ++ rest.drop (rest.takeWhile p).length = rest := by
  induction rest with
  | nil => rfl
  | cons c rest ih => by_cases h : p c <;> simp [h, ih]

theorem quoted_append_drop (rest : List Char) :
    quoted rest ++ rest.drop (quoted rest).length = rest := by
  unfold quoted
  split
  next rest =>
    split
    next closed =>
      have h : (rest.takeWhile (· ≠ '"') ++ ['"']) ++
          rest.drop ((rest.takeWhile (· ≠ '"')).length + 1) = rest := by
        induction rest with
        | nil => simp at closed
        | cons c rest ih =>
          by_cases hc : c = '"'
          · simp [hc]
          · have : '"' ∈ rest := by simpa [Ne.symm hc] using closed
            simpa [hc] using ih this
      simpa using h
    next => simp
  next => simp

theorem glyph_append_drop (rest : List Char) :
    glyph rest ++ rest.drop (glyph rest).length = rest := by
  unfold glyph
  split
  · split <;> simp
  · simp

/-- A lexeme is a beginning of the text it was found in. -/
theorem lexeme_append_drop (kind : Kind) (rest : List Char) :
    kind.lexeme rest ++ rest.drop (kind.lexeme rest).length = rest := by
  cases kind with
  | space | number | word => exact takeWhile_append_drop _ rest
  | text => exact quoted_append_drop rest
  | emoji => exact glyph_append_drop rest
  | _ => exact literal_append_drop _ rest

/-! ### Finding a kind -/

/-- The length in bytes of this kind's lexeme, if it is not empty. -/
def matchLength? (kind : Kind) (text : String) : Option Nat :=
  match kind.lexeme text.toList with
  | [] => none
  | c :: cs => some (String.ofList (c :: cs)).utf8ByteSize

/-- The first kind of `order` that accepts a beginning of `rest`, with what it accepts. -/
def find? (order : List Kind) (rest : List Char) : Option (Kind × List Char) :=
  order.findSome? fun kind =>
    match kind.lexeme rest with
    | [] => none
    | c :: cs => some (kind, c :: cs)

/-- What is found is a lexeme of a kind of the list, and not empty. -/
theorem find?_eq_some {order : List Kind} {rest lexeme : List Char} {kind : Kind}
    (h : find? order rest = some (kind, lexeme)) :
    kind ∈ order ∧ lexeme = kind.lexeme rest ∧ lexeme ≠ [] := by
  obtain ⟨k, hk, h⟩ := List.exists_of_findSome?_eq_some h
  cases hl : k.lexeme rest with
  | nil => simp [hl] at h
  | cons c cs =>
    simp only [hl, Option.some.injEq, Prod.mk.injEq] at h
    obtain ⟨rfl, rfl⟩ := h
    exact ⟨hk, hl.symm, by simp⟩

/-- Nothing is found where every kind of the list accepts nothing. -/
theorem find?_eq_none_iff {order : List Kind} {rest : List Char} :
    find? order rest = none ↔ ∀ kind ∈ order, kind.lexeme rest = [] := by
  simp only [find?, List.findSome?_eq_none_iff]
  refine forall₂_congr fun kind _ => ?_
  cases kind.lexeme rest <;> simp

end Kind

end EmojiScript
