import EmojiScript.Proofs.Json.Lexer

namespace EmojiScript.Json

/-!
# Reading JSON

The second stage reads the symbols of a text as a document, one symbol after the other.  It keeps
the containers that are still open, the innermost first, each with what was read of it.  A document
is read back from both of its layouts, so texts of different documents are different.

* `Json.Mode.next`, `Json.read` — one symbol, and whole texts.
* `Json.run_symbols` — the symbols of a document inside any containers.
* `Json.read_compact`, `Json.read_pretty` — the two layouts of a document.
-/

/-- A container that is still open, up to the value that is read next. -/
inductive Frame where
  /-- A list, behind these items, latest first. -/
  | items (read : List Json)
  /-- An object, behind these fields, latest first, and behind the name of a further one. -/
  | field (read : List (String × Json)) (name : String)

/-- What a reader waits for.  The containers that are open around it are kept innermost first. -/
inductive Mode where
  | value (outer : List Frame)
  /-- The first item of a list, or its end. -/
  | firstItem (outer : List Frame)
  /-- The first field of an object, or its end. -/
  | firstField (outer : List Frame)
  /-- A comma behind these items of a list, or its end. -/
  | moreItems (read : List Json) (outer : List Frame)
  /-- A comma behind these fields of an object, or its end. -/
  | moreFields (read : List (String × Json)) (outer : List Frame)
  /-- The name of a further field. -/
  | furtherField (read : List (String × Json)) (outer : List Frame)
  /-- The colon behind the name of a field. -/
  | colon (read : List (String × Json)) (name : String) (outer : List Frame)
  /-- The end of the text. -/
  | done (json : Json)

namespace Mode

/-- A value has been read inside these containers. -/
def give : List Frame → Json → Mode
  | [], json => done json
  | .items read :: outer, json => moreItems (json :: read) outer
  | .field read name :: outer, json => moreFields ((name, json) :: read) outer

/-- A value is read or begun inside these containers. -/
def start (outer : List Frame) : Symbol → Option Mode
  | .string s => some (give outer (.string s))
  | .number n => some (give outer (.number n))
  | .openArray => some (firstItem outer)
  | .openObject => some (firstField outer)
  | _ => none

/-- What a symbol leads to. -/
def next : Mode → Symbol → Option Mode
  | value outer, symbol => start outer symbol
  | firstItem outer, .closeArray => some (give outer (.array []))
  | firstItem outer, symbol => start (.items [] :: outer) symbol
  | moreItems read outer, .comma => some (value (.items read :: outer))
  | moreItems read outer, .closeArray => some (give outer (.array read.reverse))
  | firstField outer, .closeObject => some (give outer (.object []))
  | firstField outer, .string name => some (colon [] name outer)
  | moreFields read outer, .comma => some (furtherField read outer)
  | moreFields read outer, .closeObject => some (give outer (.object read.reverse))
  | furtherField read outer, .string name => some (colon read name outer)
  | colon read name outer, .colon => some (value (.field read name :: outer))
  | _, _ => none

end Mode

/-- The document that symbols end. -/
def run : Mode → List Symbol → Option Json
  | .done json, [] => some json
  | _, [] => none
  | mode, symbol :: rest => (mode.next symbol).bind (run · rest)

/-- The document that a text is. -/
def read (text : String) : Option Json := (lex .between text.toList).bind (run (.value []))

/-! ### Symbols of a document -/

variable {mode mode' : Mode} {symbol : Symbol} {rest : List Symbol}

theorem run_cons (h : mode.next symbol = some mode') (rest : List Symbol) :
    run mode (symbol :: rest) = run mode' rest := by
  rw [run, h, Option.bind_some]

/-- No document begins with the end of a list. -/
theorem run_firstItem (item : Json) (outer : List Frame) (rest : List Symbol) :
    run (.firstItem outer) (item.symbols rest) =
      run (.value (.items [] :: outer)) (item.symbols rest) := by
  cases item with
  | string s => rfl
  | number n => rfl
  | array items => cases items <;> rfl
  | object fields => cases fields <;> rfl

/-- Behind the brace, the first field is read as a further one is behind a comma. -/
theorem run_firstField (name : String) (json : Json) (outer : List Frame) (rest : List Symbol) :
    run (.firstField outer) (fieldSymbols (name, json) rest) =
      run (.furtherField [] outer) (fieldSymbols (name, json) rest) := rfl

/-- A document is read from its symbols, inside any containers and in front of any symbols. -/
def Reads (json : Json) : Prop :=
  ∀ (outer : List Frame) (rest : List Symbol),
    run (.value outer) (json.symbols rest) = run (.give outer json) rest

theorem run_itemSymbols {items : List Json} (h : ∀ item ∈ items, item.Reads) (read : List Json)
    (outer : List Frame) (rest : List Symbol) :
    run (.moreItems read outer) (itemSymbols items (.closeArray :: rest)) =
      run (.give outer (.array (read.reverse ++ items))) rest := by
  -- on the items that are left; those before them have been read
  induction items generalizing read with
  | nil =>
    rw [List.append_nil]
    exact run_cons rfl rest
  | cons item items ih =>
    obtain ⟨hitem, hitems⟩ := List.forall_mem_cons.mp h
    rw [itemSymbols, run_cons rfl, hitem, Mode.give, ih hitems, List.reverse_cons,
      List.append_assoc, List.singleton_append]

theorem run_fieldSymbols {name : String} {json : Json} (h : json.Reads)
    (read : List (String × Json)) (outer : List Frame) (rest : List Symbol) :
    run (.furtherField read outer) (fieldSymbols (name, json) rest) =
      run (.moreFields ((name, json) :: read) outer) rest := by
  rw [fieldSymbols, run_cons rfl, run_cons rfl, h, Mode.give]

theorem run_fieldsSymbols {fields : List (String × Json)} (h : ∀ field ∈ fields, field.2.Reads)
    (read : List (String × Json)) (outer : List Frame) (rest : List Symbol) :
    run (.moreFields read outer) (fieldsSymbols fields (.closeObject :: rest)) =
      run (.give outer (.object (read.reverse ++ fields))) rest := by
  induction fields generalizing read with
  | nil =>
    rw [List.append_nil]
    exact run_cons rfl rest
  | cons field fields ih =>
    obtain ⟨hfield, hfields⟩ := List.forall_mem_cons.mp h
    rw [fieldsSymbols, run_cons rfl, run_fieldSymbols hfield, ih hfields, List.reverse_cons,
      List.append_assoc, List.singleton_append]

/-- **The symbols of a document** are read as the document. -/
theorem run_symbols (json : Json) : json.Reads := by
  induction json with
  | string s => exact fun outer rest => run_cons rfl rest
  | number n => exact fun outer rest => run_cons rfl rest
  | array items ih =>
    intro outer rest
    cases items with
    | nil => rw [symbols, run_cons rfl, run_cons rfl]
    | cons item items =>
      obtain ⟨hitem, hitems⟩ := List.forall_mem_cons.mp ih
      rw [symbols, run_cons rfl, run_firstItem, hitem, Mode.give, run_itemSymbols hitems]
      rfl
  | object fields ih =>
    intro outer rest
    cases fields with
    | nil => rw [symbols, run_cons rfl, run_cons rfl]
    | cons field fields =>
      obtain ⟨name, json⟩ := field
      obtain ⟨hfield, hfields⟩ := List.forall_mem_cons.mp ih
      rw [symbols, run_cons rfl, run_firstField, run_fieldSymbols hfield, run_fieldsSymbols hfields]
      rfl

/-! ### Texts -/

theorem read_of_lex {text : String} {json : Json}
    (h : lex .between text.toList = some (json.symbols [])) : read text = some json := by
  rw [read, h, Option.bind_some, run_symbols]
  rfl

/-- A document is read back from one line. -/
theorem read_compact (json : Json) : read json.compact = some json :=
  read_of_lex json.lex_layouts.1

/-- A document is read back from several lines. -/
theorem read_pretty (json : Json) : read json.pretty = some json :=
  read_of_lex json.lex_layouts.2

/-- Other layouts are read as well. -/
example : read "[ \"\\u00e9\\/\" ,10]" = some (.array [.string "é/", .number 10]) := by rfl

/-- Numbers have no leading zeros. -/
example : read "[01]" = none := by rfl

/-- A line break behind a text changes nothing: no string may hold one. -/
theorem lex_append_newline (state : Lexing) (text : List Char) :
    lex state (text ++ ['\n']) = lex state text := by
  induction text generalizing state with
  | nil =>
    cases state with
    | coded read further code => cases further <;> rfl
    | _ => rfl
  | cons c text ih => simp only [List.cons_append, lex, ih]

theorem read_append_newline (text : String) : read (text ++ "\n") = read text := by
  rw [read, String.toList_append]
  exact congrArg (Option.bind · _) (lex_append_newline .between text.toList)

end EmojiScript.Json
