namespace EmojiScript

/-!
# JSON documents

A document is a string, a natural number, a list, or a list of named fields in their order.  It is
written in two layouts: on one line without blanks, and over several lines with two blanks of
indentation for every level.  A layout is written in front of a text that follows it.

- `Json.escape`: how a character is written inside quotes.
- `Json.compact`, `Json.pretty`: the two layouts of a document.
-/

/-- A JSON document. -/
inductive Json where
  | string (s : String)
  | number (n : Nat)
  | array (items : List Json)
  /-- Fields in the order in which they are written. -/
  | object (fields : List (String × Json))
deriving Repr, Inhabited

namespace Json

/-! ### Strings -/

/-- The lowercase hexadecimal digits of a number below 256. -/
def hexPair (n : Nat) : List Char := [Nat.digitChar (n / 16), Nat.digitChar (n % 16)]

/-- How a character is written inside quotes.  Only the quote, the backslash and the characters
below U+0020 are not written as they are. -/
def escape (c : Char) : List Char :=
  match c with
  | '"' => ['\\', '"']
  | '\\' => ['\\', '\\']
  | '\x08' => ['\\', 'b']
  | '\x0c' => ['\\', 'f']
  | '\n' => ['\\', 'n']
  | '\r' => ['\\', 'r']
  | '\t' => ['\\', 't']
  | c => if c.toNat < 0x20 then ['\\', 'u', '0', '0'] ++ hexPair c.toNat else [c]

/-- A string in quotes, in front of `rest`. -/
def writeString (s : String) (rest : List Char) : List Char :=
  '"' :: (s.toList.flatMap escape ++ '"' :: rest)

/-! ### One line -/

mutual

/-- A document on one line, in front of `rest`. -/
def write : Json → List Char → List Char
  | string s, rest => writeString s rest
  | number n, rest => Nat.toDigits 10 n ++ rest
  | array [], rest => '[' :: ']' :: rest
  | array (item :: items), rest => '[' :: item.write (writeItems items (']' :: rest))
  | object [], rest => '\x7b' :: '\x7d' :: rest
  | object (field :: fields), rest => '\x7b' :: writeField field (writeFields fields ('\x7d' :: rest))

/-- The further items of a list, a comma before each, in front of `rest`. -/
def writeItems : List Json → List Char → List Char
  | [], rest => rest
  | item :: items, rest => ',' :: item.write (writeItems items rest)

/-- The further fields of an object, a comma before each, in front of `rest`. -/
def writeFields : List (String × Json) → List Char → List Char
  | [], rest => rest
  | field :: fields, rest => ',' :: writeField field (writeFields fields rest)

/-- A name and its document, in front of `rest`. -/
def writeField : String × Json → List Char → List Char
  | (name, json), rest => writeString name (':' :: json.write rest)

end

/-- A document on one line. -/
def compact (json : Json) : String := String.ofList (json.write [])

/-! ### Several lines -/

/-- A line break and the indentation of a level, in front of `rest`. -/
def newline (level : Nat) (rest : List Char) : List Char :=
  '\n' :: (List.replicate (2 * level) ' ' ++ rest)

mutual

/-- A document over several lines, the first of which is already indented, in front of `rest`. -/
def writeAt (level : Nat) : Json → List Char → List Char
  | string s, rest => writeString s rest
  | number n, rest => Nat.toDigits 10 n ++ rest
  | array [], rest => '[' :: ']' :: rest
  | array (item :: items), rest =>
    '[' :: newline (level + 1) (item.writeAt (level + 1)
      (writeItemsAt level items (newline level (']' :: rest))))
  | object [], rest => '\x7b' :: '\x7d' :: rest
  | object (field :: fields), rest =>
    '\x7b' :: newline (level + 1) (writeFieldAt level field
      (writeFieldsAt level fields (newline level ('\x7d' :: rest))))

/-- The further items of a list at `level`, each on a line of its own, in front of `rest`. -/
def writeItemsAt (level : Nat) : List Json → List Char → List Char
  | [], rest => rest
  | item :: items, rest =>
    ',' :: newline (level + 1) (item.writeAt (level + 1) (writeItemsAt level items rest))

/-- The further fields of an object at `level`, each on a line of its own, in front of `rest`. -/
def writeFieldsAt (level : Nat) : List (String × Json) → List Char → List Char
  | [], rest => rest
  | field :: fields, rest =>
    ',' :: newline (level + 1) (writeFieldAt level field (writeFieldsAt level fields rest))

/-- A name and its document, inside an object at `level`, in front of `rest`. -/
def writeFieldAt (level : Nat) : String × Json → List Char → List Char
  | (name, json), rest => writeString name (':' :: ' ' :: json.writeAt (level + 1) rest)

end

/-- A document over several lines. -/
def pretty (json : Json) : String := String.ofList (json.writeAt 0 [])

end Json

end EmojiScript
