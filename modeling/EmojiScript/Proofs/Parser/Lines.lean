import EmojiScript.Proofs.Parser.Append
import EmojiScript.Proofs.Source

namespace EmojiScript

open Grammar

/-!
# The lines of statements

A tree tells its line by the leftmost of its leaves, and by the keyword where it prints.  This is
the line of the first token that was read of a statement but for one form: an alias definition
begins with a keyword, and tells the line of the key behind it.  So a line break between the two
makes the tree of the statement begin later than its text.

* `Begins` — the token with which the parser begins a statement.
* `Node.KeyApart` — an alias definition whose key stands on another line than its keyword.
* `compile_statement_lines` — the line is right exactly outside it.
* `compile_brokenAlias` — a source on which the line is wrong.
-/

/-! ### First tokens -/

/-- The parser goes on with `first` when it has read the statements `earlier` and no more. -/
def Begins (tokens : List Token) (earlier : List Node) (first : Token) : Prop :=
  ∃ read rest, tokens = read ++ first :: rest ∧ parse read = .ok (.program earlier)

/-- Only the empty program is read from no tokens. -/
theorem parse_eq_empty_iff {tokens : List Token} :
    parse tokens = .ok (.program []) ↔ tokens = [] := by
  constructor
  · intro h
    obtain ⟨htree, _⟩ := parse_eq_ok_iff.mp h
    cases htree
    rfl
  · rintro rfl
    rfl

/-- Behind the same statements there is but one token with which the parser goes on. -/
theorem Begins.unique {tokens : List Token} {earlier : List Node} {first other : Token}
    (h : Begins tokens earlier first) (hother : Begins tokens earlier other) : first = other := by
  obtain ⟨read, rest, htokens, hread⟩ := h
  obtain ⟨read', rest', htokens', hread'⟩ := hother
  -- of the two lists that were read, the longer one adds no statement
  have hsame : ∀ {shorter longer : List Token}, shorter <+: longer →
      parse shorter = .ok (.program earlier) → parse longer = .ok (.program earlier) →
      longer = shorter := by
    rintro shorter _ ⟨more, rfl⟩ hshorter hlonger
    obtain ⟨later, hlater, hmore⟩ := exists_later_of_parse_append hshorter hlonger
    obtain rfl : later = [] := by simpa using hlater
    rw [parse_eq_empty_iff.mp hmore, List.append_nil]
  have heq : read = read' := by
    have hprefix : read <+: tokens := ⟨_, htokens.symm⟩
    have hprefix' : read' <+: tokens := ⟨_, htokens'.symm⟩
    rcases List.prefix_or_prefix_of_prefix hprefix hprefix' with hle | hle
    · exact (hsame hle hread hread').symm
    · exact hsame hle hread' hread
  rw [htokens, heq] at htokens'
  exact (List.cons.inj (List.append_cancel_left htokens')).1

/-! ### Lines of trees -/

namespace Node

/-- An alias definition whose key stands on another line than its keyword. -/
def KeyApart (statement : Node) : Prop :=
  ∃ keyword key shown, statement = defineAlias keyword (leaf .word key) shown ∧
    key.line ≠ keyword.line

/-- A statement tells the line of its first token, unless it is an alias definition that is broken
behind its keyword. -/
theorem exists_first_of_prescribes {tokens : List Token} {statement : Node}
    (h : Prescribes .statement tokens statement) :
    ∃ first rest, tokens = first :: rest ∧
      (statement.line? = some first.line ↔ ¬ statement.KeyApart) := by
  cases h with
  | @defineAlias keyword key shown form =>
    refine ⟨keyword, [key, shown], rfl, ?_⟩
    have hline : (defineAlias keyword (leaf .word key) (leaf form shown)).line? = some key.line := by
      simp [line?]
    rw [hline, Option.some_inj]
    constructor
    · rintro heq ⟨_, _, _, ⟨⟩, hne⟩
      exact hne heq
    · intro happart
      by_cases heq : key.line = keyword.line
      · exact heq
      · exact absurd ⟨keyword, key, _, rfl, heq⟩ happart
  | assign =>
    refine ⟨_, _, rfl, iff_of_true (by simp [line?]) ?_⟩
    rintro ⟨_, _, _, ⟨⟩, _⟩
  | print =>
    refine ⟨_, _, rfl, iff_of_true (by simp [line?]) ?_⟩
    rintro ⟨_, _, _, ⟨⟩, _⟩
  | printAlias =>
    refine ⟨_, _, rfl, iff_of_true (by simp [line?]) ?_⟩
    rintro ⟨_, _, _, ⟨⟩, _⟩

/-- A program tells the line of its first statement. -/
theorem line?_program_cons (statement : Node) (rest : List Node) :
    (program (statement :: rest)).line? = statement.line? := by
  simp [line?, firstLine?]

end Node

/-- Every statement of a program begins with a token, whose line it tells unless it is an alias
definition that is broken behind its keyword. -/
theorem exists_begins_of_parse {tokens : List Token} {earlier later : List Node} {statement : Node}
    (h : parse tokens = .ok (.program (earlier ++ statement :: later))) :
    ∃ first, (∀ token, Begins tokens earlier token ↔ token = first) ∧
      (statement.line? = some first.line ↔ ¬ statement.KeyApart) := by
  obtain ⟨read, rest, hsplit, hread, hrest⟩ := exists_split_of_parse h
  obtain ⟨htree, _⟩ := parse_eq_ok_iff.mp hrest
  cases htree with
  | next hstatement =>
    obtain ⟨first, own, rfl, hline⟩ := Node.exists_first_of_prescribes hstatement
    have hbegins : Begins tokens earlier first := ⟨read, _, hsplit, hread⟩
    refine ⟨first, ?_, hline⟩
    intro token
    constructor
    · intro htoken
      exact htoken.unique hbegins
    · rintro rfl
      exact hbegins

/-! ### Programs of a source -/

/-- **Lines of statements.** Take a program of a source.  Every statement begins with one token of
the source, and tells its line exactly if the statement is no alias definition whose key stands on
another line than its keyword.  The program tells the line of the first token of all exactly if its
first statement does; and it tells none exactly if the source has no tokens. -/
theorem compile_statement_lines {source : String} {statements : List Node}
    (h : compile source = .ok (.program statements)) :
    ∃ tokens, tokenize source = .ok tokens ∧
      (∀ earlier statement later, statements = earlier ++ statement :: later →
        ∃ first, (∀ token, Begins tokens earlier token ↔ token = first) ∧
          (statement.line? = some first.line ↔ ¬ statement.KeyApart)) ∧
      ((Node.program statements).line? = tokens.head?.map Token.line ↔
        ∀ statement ∈ statements.head?, ¬ statement.KeyApart) ∧
      ((Node.program statements).line? = none ↔ tokens = []) := by
  obtain ⟨tokens, htokens, hparse⟩ := compile_eq_ok_iff.mp h
  refine ⟨tokens, htokens, ?_, ?_⟩
  · rintro earlier statement later rfl
    exact exists_begins_of_parse hparse
  · cases statements with
    | nil =>
      obtain rfl := parse_eq_empty_iff.mp hparse
      simp [Node.line?, Node.firstLine?]
    | cons statement later =>
      obtain ⟨htree, _⟩ := parse_eq_ok_iff.mp hparse
      cases htree with
      | next hstatement =>
        obtain ⟨first, own, rfl, hline⟩ := Node.exists_first_of_prescribes hstatement
        rw [Node.line?_program_cons]
        refine ⟨by simpa using hline, ?_⟩
        -- a statement always tells a line
        cases hstatement <;> simp [Node.line?]

/-- An alias definition with a line break between its keyword and its key. -/
def brokenAlias : String := "ejkey\ncat \"c\"#;"

/-- The statement of `brokenAlias`. -/
def brokenAliasTree : Node :=
  .defineAlias ⟨.ejkey, "ejkey", ⟨0, 1⟩⟩ (.leaf .word ⟨.word, "cat", ⟨6, 2⟩⟩)
    (.leaf .text ⟨.text, "\"c\"", ⟨10, 2⟩⟩)

/-- The statement of `brokenAlias` begins on line 1 and tells line 2, and so does its program. -/
theorem compile_brokenAlias :
    compile brokenAlias = .ok (.program [brokenAliasTree]) ∧
      ∃ tokens, tokenize brokenAlias = .ok tokens ∧
        Begins tokens [] ⟨.ejkey, "ejkey", ⟨0, 1⟩⟩ ∧
        tokens.head?.map Token.line = some 1 ∧ brokenAliasTree.line? = some 2 ∧
        (Node.program [brokenAliasTree]).line? = some 2 := by
  have hcollect : (Scanner.ofString brokenAlias).collect =
      ([⟨.ejkey, "ejkey", ⟨0, 1⟩⟩, ⟨.word, "cat", ⟨6, 2⟩⟩, ⟨.text, "\"c\"", ⟨10, 2⟩⟩,
        ⟨.hash, "#", ⟨13, 2⟩⟩, ⟨.semicolon, ";", ⟨14, 2⟩⟩], none) := by decide +kernel
  have htokens := tokenize_of_collect hcollect
  refine ⟨?_, _, htokens, ⟨[], _, rfl, rfl⟩, rfl, rfl, rfl⟩
  rw [compile_of_tokenize htokens]
  rfl

/-- An assignment and a line that prints, with line breaks within both. -/
def brokenLines : String := "\nx\n= 1#;print\nx#;"

/-- The statements of `brokenLines`. -/
def brokenLinesTrees : List Node :=
  [.assign ⟨.equals, "=", ⟨3, 3⟩⟩ (.leaf .word ⟨.word, "x", ⟨1, 2⟩⟩)
     (.leaf .number ⟨.number, "1", ⟨5, 3⟩⟩),
   .print ⟨.print, "print", ⟨8, 3⟩⟩ (.leaf .word ⟨.word, "x", ⟨14, 4⟩⟩)]

theorem compile_brokenLines :
    compile brokenLines = .ok (.program brokenLinesTrees) ∧
      ∃ tokens first, tokenize brokenLines = .ok tokens ∧
        (∀ token, Begins tokens (brokenLinesTrees.take 1) token ↔ token = first) ∧
        first.line = 3 := by
  have hcollect : (Scanner.ofString brokenLines).collect =
      ([⟨.word, "x", ⟨1, 2⟩⟩, ⟨.equals, "=", ⟨3, 3⟩⟩, ⟨.number, "1", ⟨5, 3⟩⟩,
        ⟨.hash, "#", ⟨6, 3⟩⟩, ⟨.semicolon, ";", ⟨7, 3⟩⟩, ⟨.print, "print", ⟨8, 3⟩⟩,
        ⟨.word, "x", ⟨14, 4⟩⟩, ⟨.hash, "#", ⟨15, 4⟩⟩, ⟨.semicolon, ";", ⟨16, 4⟩⟩], none) := by
    decide +kernel
  have hcompile : compile brokenLines = .ok (.program brokenLinesTrees) := by
    rw [compile_of_tokenize (tokenize_of_collect hcollect)]
    rfl
  refine ⟨hcompile, ?_⟩
  obtain ⟨tokens, htokens, hstatements, _⟩ := compile_statement_lines hcompile
  obtain ⟨first, hfirst, hline⟩ := hstatements [brokenLinesTrees[0]] brokenLinesTrees[1] [] rfl
  refine ⟨tokens, first, htokens, hfirst, ?_⟩
  have hprint : ¬ (brokenLinesTrees[1]).KeyApart := by
    rintro ⟨_, _, _, ⟨⟩, _⟩
  exact (Option.some.inj (hline.mpr hprint)).symm

end EmojiScript
