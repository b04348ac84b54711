import EmojiScript.Fault
import EmojiScript.Tree.Basic

namespace EmojiScript

/-!
# Reading a program token by token

A program is a list of statements, each ended by `#;`:

    statement → word "=" formula | "ejkey" word (emoji | text | word) | ("print" | "ejprint") formula
    formula   → term (("+" | "-") term)*
    term      → "(" formula ")" | text | number | word

It is read one token at a time.  A mode says what has been read of a statement and hence what may
follow; a formula under way keeps, for every parenthesis it has opened, the operation that waits
for the group to close.  Nothing is ever read back.

- `Mode.next`: the mode after a token, or what the mode expected in its place.
- `Reading.step`, `Reading.run`: the same for whole programs.
-/

/-! ### Formulas under way -/

/-- What a formula belongs to. -/
inductive Opening where
  | assign (name operator : Token)
  | print (operator : Token)
  | printAlias (operator : Token)
deriving DecidableEq, Repr, Inhabited

/-- The statement that ends with `formula`. -/
def Opening.close (opening : Opening) (formula : Node) : Node :=
  match opening with
  | assign name operator => .assign operator (.leaf .word name) formula
  | print operator => .print operator formula
  | printAlias operator => .printAlias operator formula

/-- A left operand and an operation that waits for its right operand. -/
structure Pending where
  left : Node
  op : Arithmetic
  operator : Token
deriving DecidableEq, Repr, Inhabited

/-- The formula that `operand` completes; the operand itself where no operation waits for it. -/
def Pending.complete (pending? : Option Pending) (operand : Node) : Node :=
  match pending? with
  | none => operand
  | some pending => .formula pending.op pending.operator pending.left operand

/-- What is known of a formula that has not come to its end. -/
structure Unfinished where
  opening : Opening
  /-- The terms that the statement has begun. -/
  terms : Nat := 0
  /-- For every open parenthesis, the innermost first, the operation that waits for it. -/
  groups : List (Option Pending) := []
deriving DecidableEq, Repr, Inhabited

/-! ### Modes -/

/-- What has been read of the current statement. -/
inductive Mode where
  /-- Nothing: a statement or the end may follow. -/
  | statement
  /-- The name of a variable. -/
  | equals (name : Token)
  /-- The keyword `ejkey`. -/
  | aliasName (keyword : Token)
  /-- The keyword `ejkey` and a key. -/
  | aliasValue (keyword key : Token)
  /-- A formula up to a place where a term has to begin. -/
  | operand (formula : Unfinished) (pending? : Option Pending)
  /-- A formula up to the end of a term; `left` is what the innermost open group amounts to. -/
  | operator (formula : Unfinished) (left : Node)
  /-- A whole alias definition. -/
  | hash (whole : Node)
  /-- A whole statement and `#`. -/
  | semicolon (whole : Node)
deriving DecidableEq, Repr, Inhabited

/-- The leaf that a token of this kind is as a term. -/
def Leaf.ofTerm? : Kind → Option Leaf
  | .text => some .text
  | .number => some .number
  | .word => some .word
  | _ => none

/-- The leaf that a token of this kind is as the text of an alias. -/
def Leaf.ofAliasValue? : Kind → Option Leaf
  | .emoji => some .emoji
  | .text => some .text
  | .word => some .word
  | _ => none

/-- The operation that a token of this kind stands for. -/
def Arithmetic.ofKind? : Kind → Option Arithmetic
  | .plus => some .add
  | .minus => some .sub
  | _ => none

namespace Mode

/-- What is expected in a mode, where neither the next token nor the end will do. -/
def expectation : Mode → Expectation
  | statement => .statement
  | equals _ => .equals
  | aliasName _ => .aliasName
  | aliasValue .. => .aliasValue
  | operand formula _ => if formula.terms < maxTerms then .operand else .fewerTerms
  | operator formula _ => if formula.groups.isEmpty then .hash else .closeParen
  | hash _ => .hash
  | semicolon _ => .semicolon

/-- The mode behind a term that begins with `token`, if one does. -/
def term (base : Nat) (formula : Unfinished) (pending? : Option Pending) (token : Token) :
    Except Expectation Mode :=
  let formula' := { formula with terms := formula.terms + 1 }
  if token.kind = .openParen then
    if base + formula.groups.length < maxNesting then
      .ok (.operand { formula' with groups := pending? :: formula.groups } none)
    else .error .fewerParens
  else
    match Leaf.ofTerm? token.kind with
    | some form => .ok (.operator formula' (Pending.complete pending? (.leaf form token)))
    | none => .error .operand

/-- The mode behind a token that follows a term: an operation, or the end of a group or of the
formula. -/
def afterTerm (formula : Unfinished) (left : Node) (token : Token) : Except Expectation Mode :=
  match Arithmetic.ofKind? token.kind with
  | some op => .ok (.operand formula (some ⟨left, op, token⟩))
  | none =>
    match formula.groups with
    | pending? :: groups =>
      if token.kind = .closeParen then
        .ok (.operator { formula with groups } (Pending.complete pending? left))
      else .error .closeParen
    | [] =>
      if token.kind = .hash then .ok (.semicolon (formula.opening.close left)) else .error .hash

/-- The mode after a token that does not end a statement, or what was expected in its place.
`base` counts the parentheses that count as open already. -/
def next (base : Nat) (mode : Mode) (token : Token) : Except Expectation Mode :=
  match mode with
  | statement =>
    match token.kind with
    | .word => .ok (.equals token)
    | .ejkey => .ok (.aliasName token)
    | .print => .ok (.operand { opening := .print token } none)
    | .ejprint => .ok (.operand { opening := .printAlias token } none)
    | _ => .error .statement
  | equals name =>
    if token.kind = .equals then .ok (.operand { opening := .assign name token } none)
    else .error .equals
  | aliasName keyword =>
    if token.kind = .word then .ok (.aliasValue keyword token) else .error .aliasName
  | aliasValue keyword key =>
    match Leaf.ofAliasValue? token.kind with
    | some form => .ok (.hash (.defineAlias keyword (.leaf .word key) (.leaf form token)))
    | none => .error .aliasValue
  | operand formula pending? =>
    if formula.terms < maxTerms then term base formula pending? token else .error .fewerTerms
  | operator formula left => afterTerm formula left token
  | hash whole =>
    if token.kind = .hash then .ok (.semicolon whole) else .error .hash
  | semicolon _ => .error .semicolon

/-- A token is refused with what its mode expects, but for a parenthesis that is nested too
deep. -/
theorem eq_expectation_of_next {base : Nat} {mode : Mode} {token : Token}
    {expected : Expectation} (h : mode.next base token = .error expected) :
    expected = mode.expectation ∨ expected = .fewerParens := by
  cases mode with
  | statement => grind [next, expectation]
  | equals => grind [next, expectation]
  | aliasName => grind [next, expectation]
  | aliasValue => grind [next, expectation]
  | operand formula pending? => grind [next, term, expectation]
  | operator formula left => cases h' : formula.groups <;> grind [next, afterTerm, expectation]
  | hash => grind [next, expectation]
  | semicolon => grind [next, expectation]

/-- How many parentheses still count as open when reading stops in a mode without success.  Where
a closing parenthesis was missing, the group that lacks it does not count. -/
def unclosed : Mode → Nat
  | operand formula _ => formula.groups.length
  | operator formula _ => formula.groups.length - 1
  | _ => 0

end Mode

/-! ### Programs -/

/-- What has been read of a program. -/
structure Reading where
  /-- The whole statements, the latest first. -/
  done : List Node := []
  /-- The state of the current statement. -/
  mode : Mode := .statement
deriving DecidableEq, Repr, Inhabited

/-- How a reading came to an end. -/
structure Stop where
  reading : Reading
  /-- The tokens that were not read. -/
  rest : List Token
  /-- What was expected where reading stopped, unless all was read and all statements are whole. -/
  failure? : Option Expectation
deriving Repr, Inhabited

namespace Reading

/-- The reading after one more token, or what was expected in its place. -/
def step (base : Nat) (reading : Reading) (token : Token) : Except Expectation Reading :=
  match reading.mode, token.kind with
  | .semicolon whole, .semicolon => .ok ⟨whole :: reading.done, .statement⟩
  | mode, _ => (mode.next base token).map fun mode => { reading with mode }

/-- What the end of the tokens leaves to be expected. -/
def missing? (reading : Reading) : Option Expectation :=
  match reading.mode with
  | .statement => none
  | mode => some mode.expectation

/-- Reads tokens up to the first that does not fit. -/
def run (base : Nat) (reading : Reading) : List Token → Stop
  | [] => ⟨reading, [], reading.missing?⟩
  | token :: rest =>
    match reading.step base token with
    | .ok reading => reading.run base rest
    | .error expected => ⟨reading, token :: rest, some expected⟩

end Reading

end EmojiScript
