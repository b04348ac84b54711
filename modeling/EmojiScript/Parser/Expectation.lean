namespace EmojiScript

/-!
# Limits and expectations of the grammar

A statement may hold only so many terms, and parentheses may be nested only so deep.  An
expectation is what the grammar or one of these limits asks for at a place where a program does
not go on so.
-/

/-- How many terms a statement may hold; an opened parenthesis counts as one. -/
def maxTerms : Nat := 4096

/-- How deep parentheses may be nested. -/
def maxNesting : Nat := 64

/-- What the grammar, or one of its two limits, asked for where a program did not go on so. -/
inductive Expectation where
  | statement
  | equals
  | aliasName
  | aliasValue
  | hash
  | semicolon
  | closeParen
  | operand
  /-- The statement holds as many terms as it may. -/
  | fewerTerms
  /-- Parentheses are nested as deep as they may be. -/
  | fewerParens
  /-- An expectation in the caller's own words. -/
  | worded (text : String)
deriving DecidableEq, Repr, Inhabited

/-- The wording of an expectation, as it follows "Expected". -/
def Expectation.text : Expectation → String
  | statement => "statement: assignment, 'ejkey', 'print' or 'ejprint'"
  | equals => "'=' after variable, bare expressions are not statements"
  | aliasName => "alias name after 'ejkey'"
  | aliasValue => "emoji, string or name as alias value"
  | hash => "'#' to end the statement"
  | semicolon => "';' after '#'"
  | closeParen => "')' after expression"
  | operand => "string, number, variable or '('"
  | fewerTerms => s!"at most {maxTerms} terms in one statement"
  | fewerParens => s!"at most {maxNesting} nested parentheses"
  | worded text => text

end EmojiScript
