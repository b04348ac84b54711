import EmojiScript.Fault
import EmojiScript.Token.Basic
import EmojiScript.Token.Lexeme

namespace EmojiScript

/-!
# Scanning a text

A scanner stands at a place of a text and gives one token at a time: it asks the kinds in order
which of them accepts a beginning of what is left, moves past runs of blanks, and stops for good
at the first character with which no token begins.

- `Scanner.next`: the next token, a fault, or nothing at the end.
- `Scanner.collect`: all the tokens before the end or the fault.
- `tokenize`: the tokens of a text, or its first fault.
-/

/-- A place in a text from which tokens are read. -/
structure Scanner where
  /-- The characters that have not been read. -/
  rest : List Char
  /-- The place of the first of them. -/
  location : Location := .start
  /-- No token began where the scanner stands, and it gives nothing any more. -/
  failed : Bool := false
deriving DecidableEq, Repr, Inhabited

namespace Scanner

/-- A scanner at the start of a text. -/
def ofString (text : String) : Scanner where
  rest := text.toList

/-- The scanner behind `lexeme`, a beginning of what it has not read. -/
def skip (scanner : Scanner) (lexeme : List Char) : Scanner :=
  { scanner with
    rest := scanner.rest.drop lexeme.length
    location := scanner.location.after (String.ofList lexeme) }

@[simp] theorem rest_skip (scanner : Scanner) (lexeme : List Char) :
    (scanner.skip lexeme).rest = scanner.rest.drop lexeme.length := rfl

@[simp] theorem location_skip (scanner : Scanner) (lexeme : List Char) :
    (scanner.skip lexeme).location = scanner.location.after (String.ofList lexeme) := rfl

@[simp] theorem failed_skip (scanner : Scanner) (lexeme : List Char) :
    (scanner.skip lexeme).failed = scanner.failed := rfl

/-- A lexeme is not empty, so a scanner that skips it has less left. -/
theorem length_rest_skip_lt {order : List Kind} {scanner : Scanner} {kind : Kind}
    {lexeme : List Char} (h : Kind.find? order scanner.rest = some (kind, lexeme)) :
    (scanner.skip lexeme).rest.length < scanner.rest.length := by
  obtain ⟨_, hlexeme, hne⟩ := Kind.find?_eq_some h
  have split := congrArg List.length (Kind.lexeme_append_drop kind scanner.rest)
  rw [← hlexeme, List.length_append] at split
  have : 0 < lexeme.length := List.length_pos_iff.2 hne
  simp only [rest_skip]
  omega

/-- The next token, trying the kinds in the given order, and the scanner behind it. -/
def nextIn (order : List Kind) (scanner : Scanner) : Option (Except Fault Token) × Scanner :=
  if scanner.failed then
    (none, scanner)
  else
    match scanner.rest with
    | [] => (none, scanner)
    | found :: _ =>
      match _ : Kind.find? order scanner.rest with
      | none => (some (.error (.lex scanner.location found)), { scanner with failed := true })
      | some (kind, lexeme) =>
        if kind = .space then
          nextIn order (scanner.skip lexeme)
        else
          (some (.ok ⟨kind, String.ofList lexeme, scanner.location⟩), scanner.skip lexeme)
termination_by scanner.rest.length
decreasing_by exact length_rest_skip_lt ‹_›

/-- The next token: a token, the fault that ends the scan, or nothing from then on. -/
def next (scanner : Scanner) : Option (Except Fault Token) × Scanner :=
  nextIn Kind.catalog scanner

/-- A token takes at least one character. -/
theorem length_rest_lt_of_nextIn {order : List Kind} {scanner scanner' : Scanner} {token : Token}
    (h : scanner.nextIn order = (some (.ok token), scanner')) :
    scanner'.rest.length < scanner.rest.length := by
  fun_induction nextIn order scanner with
  | case1 | case2 | case3 => simp at h
  | case4 scanner _ _ _ _ lexeme found ih =>
    exact Nat.lt_trans (ih h) (length_rest_skip_lt found)
  | case5 scanner _ _ _ _ _ lexeme found =>
    obtain ⟨_, rfl⟩ := Prod.mk.inj h
    exact length_rest_skip_lt found

/-- The tokens up to the end or to a fault, behind those already `found`, the latest first. -/
def collectOnto (order : List Kind) (found : List Token) (scanner : Scanner) :
    List Token × Option Fault :=
  match _ : scanner.nextIn order with
  | (none, _) => (found.reverse, none)
  | (some (.error fault), _) => (found.reverse, some fault)
  | (some (.ok token), scanner') => collectOnto order (token :: found) scanner'
termination_by scanner.rest.length
decreasing_by exact length_rest_lt_of_nextIn ‹_›

/-- All tokens up to the end of the text or to the fault that ends the scan. -/
def collect (scanner : Scanner) : List Token × Option Fault :=
  collectOnto Kind.catalog [] scanner

end Scanner

/-- The tokens of a text, or its first fault. -/
def tokenize (text : String) : Except Fault (List Token) :=
  match (Scanner.ofString text).collect with
  | (tokens, none) => .ok tokens
  | (_, some fault) => .error fault

end EmojiScript
