import EmojiScript.Json.Basic

namespace EmojiScript

/-!
# The symbols of a JSON text

A JSON text is read in two stages, the first of which splits it into brackets, commas, colons,
strings and numbers.  It goes through the characters once and knows no more of a text than the
symbol that it is in.  Blanks are skipped between symbols only, a string may hold every character
from U+0020 on but the quote and the backslash, and a number has no leading zero.  Both layouts of a
document are split into the symbols of the document.

* `Json.Lexing.next`, `Json.lex` — one character, and whole texts.
* `Json.symbols` — the symbols of a document.
* `Json.spells_write`, `Json.spells_writeAt` — the two layouts.
-/

namespace Json

/-- Induction over documents.  In the case of a list or an object, each of its items may be
assumed. -/
@[elab_as_elim, induction_eliminator]
theorem induct {motive : Json → Prop}
    (string : ∀ s, motive (string s))
    (number : ∀ n, motive (number n))
    (array : ∀ items, (∀ item ∈ items, motive item) → motive (array items))
    (object : ∀ fields, (∀ field ∈ fields, motive field.2) → motive (object fields))
    (json : Json) : motive json :=
  @Json.rec motive (fun items => ∀ item ∈ items, motive item)
    (fun fields => ∀ field ∈ fields, motive field.2) (fun field => motive field.2)
    string number array object
    (by simp)
    (fun _ _ head tail => List.forall_mem_cons.mpr ⟨head, tail⟩)
    (by simp)
    (fun _ _ head tail => List.forall_mem_cons.mpr ⟨head, tail⟩)
    (fun _ _ json => json) json

/-! ### Symbols -/

/-- A piece of a JSON text that means something by itself. -/
inductive Symbol where
  | openObject
  | closeObject
  | openArray
  | closeArray
  | comma
  | colon
  | string (s : String)
  | number (n : Nat)
deriving DecidableEq, Repr

/-- The symbol that is a single character. -/
def Symbol.ofMark? : Char → Option Symbol
  | '\x7b' => some openObject
  | '\x7d' => some closeObject
  | '[' => some openArray
  | ']' => some closeArray
  | ',' => some comma
  | ':' => some colon
  | _ => none

/-- Where in a text a reader stands. -/
inductive Lexing where
  /-- Between symbols. -/
  | between
  /-- Behind some digits of a number, which make `n`. -/
  | number (n : Nat)
  /-- Inside quotes.  The characters of the string that were read are kept latest first. -/
  | quoted (read : List Char)
  /-- Inside quotes, behind a backslash. -/
  | escaped (read : List Char)
  /-- Inside quotes, in the hexadecimal code of a character.  `further` digits will follow the next
  one, and those before it make `code`. -/
  | coded (read : List Char) (further code : Nat)
deriving DecidableEq, Repr

/-- The character that a single character behind a backslash stands for. -/
def unescape? : Char → Option Char
  | '"' => some '"'
  | '\\' => some '\\'
  | '/' => some '/'
  | 'b' => some '\x08'
  | 'f' => some '\x0c'
  | 'n' => some '\n'
  | 'r' => some '\r'
  | 't' => some '\t'
  | _ => none

/-- The value of a decimal digit. -/
def digitValue (c : Char) : Nat := c.toNat - '0'.toNat

/-- The value of a hexadecimal digit. -/
def hexValue? (c : Char) : Option Nat :=
  if c.isDigit then some (digitValue c)
  else if 'a' ≤ c ∧ c ≤ 'f' then some (c.toNat - 'a'.toNat + 10)
  else if 'A' ≤ c ∧ c ≤ 'F' then some (c.toNat - 'A'.toNat + 10)
  else none

namespace Lexing

/-- Between symbols, a character is skipped, or it is a symbol or begins one. -/
def start : Char → Option (List Symbol × Lexing)
  | ' ' | '\n' | '\r' | '\t' => some ([], between)
  | '"' => some ([], quoted [])
  | c =>
    if c.isDigit then some ([], number (digitValue c))
    else (Symbol.ofMark? c).map fun symbol => ([symbol], between)

/-- What a character adds: the symbols that end with it or before it, and where it leads. -/
def next : Lexing → Char → Option (List Symbol × Lexing)
  | between, c => start c
  | number n, c =>
    if c.isDigit then
      if n = 0 then none else some ([], number (10 * n + digitValue c))
    else (start c).map fun (symbols, state) => (.number n :: symbols, state)
  | quoted read, c =>
    if c = '"' then some ([.string (String.ofList read.reverse)], between)
    else if c = '\\' then some ([], escaped read)
    else if c.toNat < 0x20 then none
    else some ([], quoted (c :: read))
  | escaped read, c =>
    if c = 'u' then some ([], coded read 3 0)
    else (unescape? c).map fun c => ([], quoted (c :: read))
  | coded read (further + 1) code, c =>
    (hexValue? c).map fun digit => ([], coded read further (16 * code + digit))
  | coded read 0 code, c =>
    (hexValue? c).bind fun digit =>
      let code := 16 * code + digit
      -- a surrogate is no character
      if 0xd800 ≤ code ∧ code < 0xe000 then none
      else some ([], quoted (Char.ofNat code :: read))

/-- The symbols that end with the text. -/
def finish : Lexing → Option (List Symbol)
  | between => some []
  | number n => some [.number n]
  | _ => none

end Lexing

/-- The symbols of a text. -/
def lex : Lexing → List Char → Option (List Symbol)
  | state, [] => state.finish
  | state, c :: rest =>
    (state.next c).bind fun (symbols, state) => (lex state rest).map (symbols ++ ·)

/-! ### One character -/

variable {state state' : Lexing} {found : List Symbol} {c : Char} {rest : List Char}

theorem lex_cons (h : state.next c = some (found, state')) (rest : List Char) :
    lex state (c :: rest) = (lex state' rest).map (found ++ ·) := by
  rw [lex, h, Option.bind_some]

theorem lex_cons_silent (h : state.next c = some ([], state')) (rest : List Char) :
    lex state (c :: rest) = lex state' rest := by
  rw [lex_cons h]
  simp

/-- A mark is a symbol. -/
theorem lex_mark {symbol : Symbol} (h : Lexing.start c = some ([symbol], .between))
    (rest : List Char) : lex .between (c :: rest) = (lex .between rest).map (symbol :: ·) := by
  have hnext : Lexing.between.next c = some ([symbol], .between) := h
  exact lex_cons hnext rest

/-- Indentation has no symbols. -/
theorem lex_newline (level : Nat) (rest : List Char) :
    lex .between (newline level rest) = lex .between rest := by
  rw [newline, lex_cons_silent rfl]
  induction 2 * level with
  | zero => rfl
  | succ count ih => rw [List.replicate_succ, List.cons_append, lex_cons_silent rfl, ih]

/-! ### Strings -/

theorem hexValue?_digitChar {n : Nat} (h : n < 16) : hexValue? (Nat.digitChar n) = some n := by
  revert n
  decide

/-- A code of four digits, of which the last two make the character. -/
theorem lex_hexPair {n : Nat} (h : n < 0x20) (read rest : List Char) :
    lex (.quoted read) ('\\' :: 'u' :: '0' :: '0' :: (hexPair n ++ rest)) =
      lex (.quoted (Char.ofNat n :: read)) rest := by
  have hhigh : Lexing.next (.coded read 1 0) (Nat.digitChar (n / 16)) =
      some ([], .coded read 0 (n / 16)) := by
    simp [Lexing.next, hexValue?_digitChar (show n / 16 < 16 by omega)]
  have hlow : Lexing.next (.coded read 0 (n / 16)) (Nat.digitChar (n % 16)) =
      some ([], .quoted (Char.ofNat n :: read)) := by
    have hcode : 16 * (n / 16) + n % 16 = n := Nat.div_add_mod n 16
    simp only [Lexing.next, hexValue?_digitChar (show n % 16 < 16 by omega), Option.bind_some,
      hcode]
    rw [if_neg (by omega)]
  rw [lex_cons_silent rfl, lex_cons_silent rfl, lex_cons_silent rfl, lex_cons_silent rfl, hexPair]
  exact (lex_cons_silent hhigh _).trans (lex_cons_silent hlow _)

theorem lex_unescape {mark : Char} (h : unescape? mark = some c) (read rest : List Char) :
    lex (.quoted read) ('\\' :: mark :: rest) = lex (.quoted (c :: read)) rest := by
  have hcode : mark ≠ 'u' := by
    rintro rfl
    cases h
  have hnext : Lexing.next (.escaped read) mark = some ([], .quoted (c :: read)) := by
    simp [Lexing.next, hcode, h]
  exact (lex_cons_silent rfl _).trans (lex_cons_silent hnext _)

/-- A character in quotes is read as itself. -/
theorem lex_escape (c : Char) (read rest : List Char) :
    lex (.quoted read) (escape c ++ rest) = lex (.quoted (c :: read)) rest := by
  unfold escape
  split
  next => exact lex_unescape rfl read rest
  next => exact lex_unescape rfl read rest
  next => exact lex_unescape rfl read rest
  next => exact lex_unescape rfl read rest
  next => exact lex_unescape rfl read rest
  next => exact lex_unescape rfl read rest
  next => exact lex_unescape rfl read rest
  next hquote hbackslash _ _ _ _ _ =>
    split
    next hcontrol =>
      have hcoded := lex_hexPair hcontrol read rest
      rwa [Char.ofNat_toNat] at hcoded
    next hprintable =>
      refine lex_cons_silent ?_ rest
      rw [Lexing.next, if_neg hquote, if_neg hbackslash, if_neg hprintable]

/-- A string in quotes is the string. -/
theorem lex_writeString (s : String) (rest : List Char) :
    lex .between (writeString s rest) = (lex .between rest).map (.string s :: ·) := by
  have hquoted : ∀ (chars read : List Char),
      lex (.quoted read) (chars.flatMap escape ++ '"' :: rest) =
        (lex .between rest).map (.string (String.ofList (read.reverse ++ chars)) :: ·) := by
    -- on the characters that are left; those before them have been read
    intro chars
    induction chars with
    | nil =>
      intro read
      have hquote : (Lexing.quoted read).next '"' =
          some ([.string (String.ofList read.reverse)], .between) := rfl
      rw [List.append_nil]
      exact lex_cons hquote rest
    | cons c chars ih =>
      intro read
      rw [List.flatMap_cons, List.append_assoc, lex_escape, ih, List.reverse_cons,
        List.append_assoc, List.singleton_append]
  rw [writeString, lex_cons_silent rfl, hquoted]
  simp

/-! ### Numbers -/

/-- What follows a number is no further digit of it. -/
def Ends (rest : List Char) : Prop := ∀ c ∈ rest.head?, c.isDigit = false

theorem next_between_digitChar {n : Nat} (h : n < 10) :
    Lexing.between.next (Nat.digitChar n) = some ([], .number n) := by
  revert n
  decide

/-- Behind a number that is not zero, a digit is a further digit of it. -/
theorem next_number_digitChar {n digit : Nat} (hn : n ≠ 0) (h : digit < 10) :
    (Lexing.number n).next (Nat.digitChar digit) = some ([], .number (10 * n + digit)) := by
  have hdigit : (Nat.digitChar digit).isDigit = true := by
    revert digit
    decide
  have hvalue : digitValue (Nat.digitChar digit) = digit := by
    revert digit
    decide
  rw [Lexing.next, if_pos hdigit, if_neg hn, hvalue]

/-- Behind the digits of a number, these make the number. -/
theorem lex_toDigits (n : Nat) (rest : List Char) :
    lex .between (Nat.toDigits 10 n ++ rest) = lex (.number n) rest := by
  induction n using Nat.strongRecOn generalizing rest with
  | ind n ih =>
    by_cases hsmall : n < 10
    · rw [Nat.toDigits_of_lt_base hsmall]
      exact lex_cons_silent (next_between_digitChar hsmall) rest
    · -- the last digit is read behind the others, which do not begin with a zero
      have hn : n / 10 ≠ 0 := by omega
      have hlast : n % 10 < 10 := by omega
      rw [Nat.toDigits_of_base_le (by decide) (by omega), List.append_assoc, ih _ (by omega),
        List.singleton_append, lex_cons_silent (next_number_digitChar hn hlast), Nat.div_add_mod]

/-- A number ends in front of anything but a digit. -/
theorem lex_number (n : Nat) (hrest : Ends rest) :
    lex (.number n) rest = (lex .between rest).map (.number n :: ·) := by
  cases rest with
  | nil => rfl
  | cons c rest =>
    have hdigit : c.isDigit = false := hrest c rfl
    cases hstart : Lexing.start c with
    | none => simp [lex, Lexing.next, hdigit, hstart]
    | some found =>
      have hbetween : Lexing.between.next c = some found := hstart
      have hnext : (Lexing.number n).next c = some (.number n :: found.1, found.2) := by
        simp [Lexing.next, hdigit, hstart]
      rw [lex_cons hnext, lex_cons hbetween, Option.map_map]
      rfl

/-! ### The symbols of a document -/

mutual

/-- The symbols of a document, in front of `rest`. -/
def symbols : Json → List Symbol → List Symbol
  | string s, rest => .string s :: rest
  | number n, rest => .number n :: rest
  | array [], rest => .openArray :: .closeArray :: rest
  | array (item :: items), rest =>
    .openArray :: item.symbols (itemSymbols items (.closeArray :: rest))
  | object [], rest => .openObject :: .closeObject :: rest
  | object (field :: fields), rest =>
    .openObject :: fieldSymbols field (fieldsSymbols fields (.closeObject :: rest))

/-- The symbols of the further items of a list, in front of `rest`. -/
def itemSymbols : List Json → List Symbol → List Symbol
  | [], rest => rest
  | item :: items, rest => .comma :: item.symbols (itemSymbols items rest)

/-- The symbols of the further fields of an object, in front of `rest`. -/
def fieldsSymbols : List (String × Json) → List Symbol → List Symbol
  | [], rest => rest
  | field :: fields, rest => .comma :: fieldSymbols field (fieldsSymbols fields rest)

/-- The symbols of a field, in front of `rest`. -/
def fieldSymbols : String × Json → List Symbol → List Symbol
  | (name, json), rest => .string name :: .colon :: json.symbols rest

end

/-- A text that is written in front of others has these symbols in front of theirs, whatever stands
there but a digit. -/
def Spells (text : List Char → List Char) (symbols : List Symbol → List Symbol) : Prop :=
  ∀ ⦃rest⦄, Ends rest → lex .between (text rest) = (lex .between rest).map symbols

theorem ends_cons (hc : c.isDigit = false) (rest : List Char) : Ends (c :: rest) := by
  intro d hd
  rwa [← Option.some.inj hd]

/-! ### Documents on one line -/

theorem ends_writeItems (items : List Json) (hrest : Ends rest) : Ends (writeItems items rest) := by
  cases items with
  | nil => exact hrest
  | cons => exact ends_cons rfl _

theorem ends_writeFields (fields : List (String × Json)) (hrest : Ends rest) :
    Ends (writeFields fields rest) := by
  cases fields with
  | nil => exact hrest
  | cons => exact ends_cons rfl _

theorem spells_writeItems {items : List Json} (h : ∀ item ∈ items, Spells item.write item.symbols) :
    Spells (writeItems items) (itemSymbols items) := by
  intro rest hrest
  induction items with
  | nil => exact Option.map_id'.symm
  | cons item items ih =>
    obtain ⟨hitem, hitems⟩ := List.forall_mem_cons.mp h
    rw [writeItems, lex_mark rfl, hitem (ends_writeItems items hrest), ih hitems,
      Option.map_map, Option.map_map]
    rfl

theorem spells_writeField {name : String} {json : Json} (h : Spells json.write json.symbols) :
    Spells (writeField (name, json)) (fieldSymbols (name, json)) := by
  intro rest hrest
  rw [writeField, lex_writeString, lex_mark rfl, h hrest, Option.map_map, Option.map_map]
  rfl

theorem spells_writeFields {fields : List (String × Json)}
    (h : ∀ field ∈ fields, Spells field.2.write field.2.symbols) :
    Spells (writeFields fields) (fieldsSymbols fields) := by
  intro rest hrest
  induction fields with
  | nil => exact Option.map_id'.symm
  | cons field fields ih =>
    obtain ⟨hfield, hfields⟩ := List.forall_mem_cons.mp h
    rw [writeFields, lex_mark rfl, spells_writeField hfield (ends_writeFields fields hrest),
      ih hfields, Option.map_map, Option.map_map]
    rfl

/-- **One line** has the symbols of its document. -/
theorem spells_write (json : Json) : Spells json.write json.symbols := by
  intro rest hrest
  -- behind each part of a document stands a mark, so that a number is never continued
  induction json generalizing rest with
  | string s => exact lex_writeString s rest
  | number n => exact (lex_toDigits n rest).trans (lex_number n hrest)
  | array items ih =>
    cases items with
    | nil =>
      rw [write, lex_mark rfl, lex_mark rfl, Option.map_map]
      rfl
    | cons item items =>
      obtain ⟨hitem, hitems⟩ := List.forall_mem_cons.mp ih
      have hclose : Ends (']' :: rest) := ends_cons rfl rest
      rw [write, lex_mark rfl, hitem (ends_writeItems items hclose),
        spells_writeItems hitems hclose, lex_mark rfl, Option.map_map, Option.map_map,
        Option.map_map]
      rfl
  | object fields ih =>
    cases fields with
    | nil =>
      rw [write, lex_mark rfl, lex_mark rfl, Option.map_map]
      rfl
    | cons field fields =>
      obtain ⟨hfield, hfields⟩ := List.forall_mem_cons.mp ih
      have hclose : Ends ('\x7d' :: rest) := ends_cons rfl rest
      rw [write, lex_mark rfl, spells_writeField hfield (ends_writeFields fields hclose),
        spells_writeFields hfields hclose, lex_mark rfl, Option.map_map, Option.map_map,
        Option.map_map]
      rfl

/-! ### Documents over several lines -/

variable {level : Nat}

theorem ends_writeItemsAt (items : List Json) (hrest : Ends rest) :
    Ends (writeItemsAt level items rest) := by
  cases items with
  | nil => exact hrest
  | cons => exact ends_cons rfl _

theorem ends_writeFieldsAt (fields : List (String × Json)) (hrest : Ends rest) :
    Ends (writeFieldsAt level fields rest) := by
  cases fields with
  | nil => exact hrest
  | cons => exact ends_cons rfl _

theorem spells_writeItemsAt {items : List Json}
    (h : ∀ item ∈ items, Spells (item.writeAt (level + 1)) item.symbols) :
    Spells (writeItemsAt level items) (itemSymbols items) := by
  intro rest hrest
  induction items with
  | nil => exact Option.map_id'.symm
  | cons item items ih =>
    obtain ⟨hitem, hitems⟩ := List.forall_mem_cons.mp h
    rw [writeItemsAt, lex_mark rfl, lex_newline, hitem (ends_writeItemsAt items hrest), ih hitems,
      Option.map_map, Option.map_map]
    rfl

theorem spells_writeFieldAt {name : String} {json : Json}
    (h : Spells (json.writeAt (level + 1)) json.symbols) :
    Spells (writeFieldAt level (name, json)) (fieldSymbols (name, json)) := by
  intro rest hrest
  rw [writeFieldAt, lex_writeString, lex_mark rfl, lex_cons_silent rfl, h hrest, Option.map_map,
    Option.map_map]
  rfl

theorem spells_writeFieldsAt {fields : List (String × Json)}
    (h : ∀ field ∈ fields, Spells (field.2.writeAt (level + 1)) field.2.symbols) :
    Spells (writeFieldsAt level fields) (fieldsSymbols fields) := by
  intro rest hrest
  induction fields with
  | nil => exact Option.map_id'.symm
  | cons field fields ih =>
    obtain ⟨hfield, hfields⟩ := List.forall_mem_cons.mp h
    rw [writeFieldsAt, lex_mark rfl, lex_newline,
      spells_writeFieldAt hfield (ends_writeFieldsAt fields hrest), ih hfields, Option.map_map,
      Option.map_map]
    rfl

/-- **Several lines** have the symbols of their document, at every level. -/
theorem spells_writeAt (level : Nat) (json : Json) : Spells (json.writeAt level) json.symbols := by
  intro rest hrest
  induction json generalizing level rest with
  | string s => exact lex_writeString s rest
  | number n => exact (lex_toDigits n rest).trans (lex_number n hrest)
  | array items ih =>
    cases items with
    | nil =>
      rw [writeAt, lex_mark rfl, lex_mark rfl, Option.map_map]
      rfl
    | cons item items =>
      obtain ⟨hitem, hitems⟩ := List.forall_mem_cons.mp ih
      have hclose : Ends (newline level (']' :: rest)) := ends_cons rfl _
      rw [writeAt, lex_mark rfl, lex_newline, hitem _ (ends_writeItemsAt items hclose),
        spells_writeItemsAt (fun item hmem => hitems item hmem _) hclose, lex_newline,
        lex_mark rfl, Option.map_map, Option.map_map, Option.map_map]
      rfl
  | object fields ih =>
    cases fields with
    | nil =>
      rw [writeAt, lex_mark rfl, lex_mark rfl, Option.map_map]
      rfl
    | cons field fields =>
      obtain ⟨hfield, hfields⟩ := List.forall_mem_cons.mp ih
      have hclose : Ends (newline level ('\x7d' :: rest)) := ends_cons rfl _
      rw [writeAt, lex_mark rfl, lex_newline,
        spells_writeFieldAt (hfield _) (ends_writeFieldsAt fields hclose),
        spells_writeFieldsAt (fun field hmem => hfields field hmem _) hclose, lex_newline,
        lex_mark rfl, Option.map_map, Option.map_map, Option.map_map]
      rfl

/-- Both layouts have the symbols of the document and no others. -/
theorem lex_layouts (json : Json) :
    lex .between json.compact.toList = some (json.symbols []) ∧
      lex .between json.pretty.toList = some (json.symbols []) := by
  have hend : Ends [] := by simp [Ends]
  rw [compact, pretty, String.toList_ofList, String.toList_ofList]
  exact ⟨spells_write json hend, spells_writeAt 0 json hend⟩

end Json

end EmojiScript
