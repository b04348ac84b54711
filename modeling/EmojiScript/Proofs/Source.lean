import EmojiScript.Program
import EmojiScript.Proofs.Grammar
import EmojiScript.Proofs.Parser.Completeness
import EmojiScript.Proofs.Scanner.Run

namespace EmojiScript

/-!
# From a source to its program

What is known of a source that is a program: its scan reads all of it, the program is what its
tokens are, and every token that the tree holds is a lexeme of its kind.

* `gives_of_tokenize` — the scan behind a list of tokens.
* `compile_eq_ok_iff` — the two stages of a success.
* `exists_lexeme_of_compile` — the tokens of the tree.
-/

theorem tokenize_of_collect {source : String} {tokens : List Token}
    (h : (Scanner.ofString source).collect = (tokens, none)) : tokenize source = .ok tokens := by
  rw [tokenize, h]

theorem collect_of_tokenize {source : String} {tokens : List Token}
    (h : tokenize source = .ok tokens) : (Scanner.ofString source).collect = (tokens, none) := by
  unfold tokenize at h
  split at h
  next hcollect => rw [hcollect, Except.ok.inj h]
  next => cases h

/-- A scan has given tokens before it fails. -/
theorem exists_collect_of_tokenize {source : String} {fault : Fault}
    (h : tokenize source = .error fault) :
    ∃ tokens, (Scanner.ofString source).collect = (tokens, some fault) := by
  unfold tokenize at h
  split at h
  next => cases h
  next tokens _ hcollect => exact ⟨tokens, by rw [hcollect, Except.error.inj h]⟩

/-- A source without lexical faults is the program that its tokens are. -/
theorem compile_of_tokenize {source : String} {tokens : List Token}
    (h : tokenize source = .ok tokens) : compile source = parse tokens := by
  show (tokenize source).bind parse = parse tokens
  rw [h]
  rfl

/-- A lexical fault is the fault of the source. -/
theorem compile_of_tokenize_error {source : String} {fault : Fault}
    (h : tokenize source = .error fault) : compile source = .error fault := by
  show (tokenize source).bind parse = .error fault
  rw [h]
  rfl

/-- A source is a program if it has tokens and these are the program. -/
theorem compile_eq_ok_iff {source : String} {program : Node} :
    compile source = .ok program ↔
      ∃ tokens, tokenize source = .ok tokens ∧ parse tokens = .ok program := by
  constructor
  · intro h
    cases htokens : tokenize source with
    | ok tokens => exact ⟨tokens, rfl, by rw [← compile_of_tokenize htokens, h]⟩
    | error fault =>
      rw [compile_of_tokenize_error htokens] at h
      cases h
  · rintro ⟨tokens, htokens, hparse⟩
    rw [compile_of_tokenize htokens, hparse]

/-- The scan of a source without lexical faults gives its tokens and reads all of it. -/
theorem gives_of_tokenize {source : String} {tokens : List Token}
    (h : tokenize source = .ok tokens) :
    ∃ scanner', Scanner.Gives Kind.catalog (Scanner.ofString source) tokens scanner' ∧
      scanner'.rest = [] := by
  obtain ⟨scanner', hgives, hend⟩ := Scanner.gives_collect source
  unfold tokenize at h
  split at h
  next hcollect =>
    obtain rfl := Except.ok.inj h
    rw [hcollect] at hgives hend
    exact ⟨scanner', hgives, hend⟩
  next => cases h

/-- Every token that the tree of a source holds was scanned. -/
theorem exists_gives_of_compile {source : String} {program : Node}
    (h : compile source = .ok program) :
    ∃ tokens scanner', Scanner.Gives Kind.catalog (Scanner.ofString source) tokens scanner' ∧
      ∀ token ∈ program.inOrder, token ∈ tokens := by
  obtain ⟨tokens, htokens, hparse⟩ := compile_eq_ok_iff.mp h
  obtain ⟨scanner', hgives, _⟩ := gives_of_tokenize htokens
  refine ⟨tokens, scanner', hgives, ?_⟩
  intro token htoken
  -- the tree holds the tokens of the source without its punctuation
  rw [Grammar.inOrder_eq_of_prescribes (parse_eq_ok_iff.mp hparse).1] at htoken
  exact (List.mem_filter.mp htoken).1

/-- Every token that the tree of a source holds is a lexeme of its kind. -/
theorem exists_lexeme_of_compile {source : String} {program : Node}
    (h : compile source = .ok program) :
    ∀ token ∈ program.inOrder,
      token.text ≠ "" ∧ ∃ rest, token.text.toList = token.kind.lexeme rest := by
  obtain ⟨tokens, scanner', hgives, hmem⟩ := exists_gives_of_compile h
  intro token htoken
  exact hgives.exists_lexeme token (hmem token htoken)

/-- Every token that the tree of a source holds was found at the front of some text. -/
theorem exists_find?_of_compile {source : String} {program : Node}
    (h : compile source = .ok program) :
    ∀ token ∈ program.inOrder,
      ∃ rest, Kind.find? Kind.catalog rest = some (token.kind, token.text.toList) := by
  obtain ⟨tokens, scanner', hgives, hmem⟩ := exists_gives_of_compile h
  intro token htoken
  exact hgives.exists_find? token (hmem token htoken)

end EmojiScript
