import EmojiScript.Parser.Mode

namespace EmojiScript

/-!
# Parsers

A parser reads a program from a list of tokens and may be asked again: it goes on at the token at
which it stopped, and parentheses that a failure left open go on counting against the nesting.

- `Parser.parse`: a program or the fault that stopped it, and the parser afterwards.
- `parse`: the program that a list of tokens is.
-/

/-- A place in a list of tokens from which programs are read. -/
structure Parser where
  tokens : List Token
  /-- How many of the tokens have been read. -/
  cursor : Nat := 0
  /-- How many parentheses count as open. -/
  depth : Nat := 0
deriving DecidableEq, Repr, Inhabited

namespace Parser

/-- A parser at the first of some tokens. -/
def ofTokens (tokens : List Token) : Parser := { tokens }

/-- The tokens that have not been read. -/
def rest (parser : Parser) : List Token := parser.tokens.drop parser.cursor

/-- Where a fault is reported that was found in front of `rest`: at the first of these tokens, or
just behind the last token of all when none is left. -/
def faultLocation (parser : Parser) (rest : List Token) : Location :=
  match rest with
  | token :: _ => token.location
  | [] => (parser.tokens.getLast?.map Token.stop).getD .start

/-- The parser after reading stopped. -/
def resumeAt (parser : Parser) (stop : Stop) : Parser :=
  { parser with
    cursor := parser.tokens.length - stop.rest.length
    depth := parser.depth + stop.reading.mode.unclosed }

/-- Reads a program from the rest of the tokens. -/
def parse (parser : Parser) : Except Fault Node × Parser :=
  let stop := Reading.run parser.depth {} parser.rest
  let result :=
    match stop.failure? with
    | none => .ok (.program stop.reading.done.reverse)
    | some expected => .error (.parse (parser.faultLocation stop.rest) expected)
  (result, parser.resumeAt stop)

end Parser

/-- The program that a list of tokens is. -/
def parse (tokens : List Token) : Except Fault Node := (Parser.ofTokens tokens).parse.1

end EmojiScript
