import EmojiScript.Proofs.Evaluation.Relocation
import EmojiScript.Proofs.FaultLocation
import EmojiScript.Proofs.Parser.Append
import Mathlib.Data.List.Forall2

namespace EmojiScript

/-!
# Layout means nothing

Blanks and line breaks move the tokens of a text and change nothing else about them.  Tokens that
differ in their places only are read alike, and the programs that they are do the same to every
machine.  Only what a fault says about its own place can differ.

* `Token.Alike` — the same kind and text, wherever the tokens stand.
* `Reading.run_of_alike` — alike tokens are read alike.
* `Node.run_of_relocate_eq` — programs that are equal but for their places run alike.
* `parse_and_run_of_alike` — alike tokens fail alike, or are programs that run alike.
-/

/-! ### Alike tokens -/

/-- Two tokens have the same kind and the same text, wherever they stand. -/
def Token.Alike (token other : Token) : Prop :=
  token.kind = other.kind ∧ token.text = other.text

/-- Alike tokens are one token once their places are forgotten. -/
theorem Token.Alike.relocate_nowhere {token other : Token} (h : token.Alike other) :
    token.relocate .nowhere = other.relocate .nowhere := by
  obtain ⟨kind, text, location⟩ := token
  obtain ⟨kind', text', location'⟩ := other
  obtain ⟨rfl, rfl⟩ := h
  rfl

variable {tokens others : List Token}

theorem map_relocate_nowhere (h : List.Forall₂ Token.Alike tokens others) :
    tokens.map (Token.relocate .nowhere) = others.map (Token.relocate .nowhere) := by
  induction h with
  | nil => rfl
  | cons hfirst _ ih => rw [List.map_cons, List.map_cons, hfirst.relocate_nowhere, ih]

/-! ### Reading -/

/-- **Alike tokens are read alike**: the readings stop in front of the same one of them, for the
same reason, and have read the same statements but for the places. -/
theorem Reading.run_of_alike (h : List.Forall₂ Token.Alike tokens others) :
    (run 0 {} tokens).failure? = (run 0 {} others).failure? ∧
      (run 0 {} tokens).rest.length = (run 0 {} others).rest.length ∧
      (run 0 {} tokens).reading.done.map (Node.relocate .nowhere) =
        (run 0 {} others).reading.done.map (Node.relocate .nowhere) := by
  have hstop : (run 0 {} tokens).relocate .nowhere = (run 0 {} others).relocate .nowhere :=
    calc (run 0 {} tokens).relocate .nowhere
        = run 0 (relocate .nowhere {}) (tokens.map (Token.relocate .nowhere)) :=
          (run_relocate .nowhere 0 {} tokens).symm
      _ = run 0 (relocate .nowhere {}) (others.map (Token.relocate .nowhere)) := by
          rw [map_relocate_nowhere h]
      _ = (run 0 {} others).relocate .nowhere := run_relocate .nowhere 0 {} others
  simp only [Stop.relocate, relocate, Stop.mk.injEq, mk.injEq] at hstop
  obtain ⟨⟨hdone, _⟩, hrest, hfailure⟩ := hstop
  refine ⟨hfailure, ?_, hdone⟩
  simpa using congrArg List.length hrest

/-- A fresh parser of these tokens stops in front of the token with this index, or behind the last
one where there is none, because something else was expected. -/
structure FailsAt (tokens : List Token) (index : Nat) (expected : Expectation) : Prop where
  cursor_eq : (Parser.ofTokens tokens).parse.2.cursor = index
  parse_eq : parse tokens =
    .error (.parse ((Parser.ofTokens tokens).faultLocation (tokens.drop index)) expected)

theorem failsAt_of_failure? {expected : Expectation}
    (h : (Reading.run 0 {} tokens).failure? = some expected) :
    FailsAt tokens (tokens.length - (Reading.run 0 {} tokens).rest.length) expected where
  cursor_eq := rfl
  parse_eq := by
    have hrest := List.suffix_iff_eq_drop.mp (Reading.rest_run_suffix 0 {} tokens)
    rw [parse_eq_run, h, ← hrest]

/-! ### Running -/

/-- **Programs that are equal but for their places run alike**: they leave the same machine, and
their faults are equal but for the places. -/
theorem Node.run_of_relocate_eq {σ : Type} [Sink σ] {before after : List Node}
    (hbefore : ∀ statement ∈ before, statement.IsStatement)
    (hafter : ∀ statement ∈ after, statement.IsStatement)
    (h : before.map (relocate .nowhere) = after.map (relocate .nowhere)) (machine : Machine σ) :
    ((program before).run.runOn machine).2 = ((program after).run.runOn machine).2 ∧
      ((program before).run.runOn machine).1.mapError (Fault.relocate .nowhere) =
        ((program after).run.runOn machine).1.mapError (Fault.relocate .nowhere) := by
  have hmoved : Eval.Relocates .nowhere ((program before).run : Eval σ Unit) _ :=
    relocates_run hbefore
  have hmoved' : Eval.Relocates .nowhere ((program after).run : Eval σ Unit) _ :=
    relocates_run hafter
  rw [h] at hmoved
  -- both runs are that of one program, the one without places
  have hsame := (hmoved machine).symm.trans (hmoved' machine)
  obtain ⟨hresult, hmachine⟩ := Prod.mk.inj hsame
  exact ⟨hmachine, hresult⟩

/-- **Layout means nothing.** Take two lists of tokens that differ in the places of tokens only.
Either they are programs that are equal but for these places, and on every machine the two runs
leave the same context and the same sink and end alike, faults being equal but for the line that
they name.  Or neither is a program: both parsers stop at the same index and expect the same. -/
theorem parse_and_run_of_alike {σ : Type} [Sink σ]
    (h : List.Forall₂ Token.Alike tokens others) :
    (∃ program other, parse tokens = .ok program ∧ parse others = .ok other ∧
      program.relocate .nowhere = other.relocate .nowhere ∧
      ∀ machine : Machine σ,
        (program.run.runOn machine).2 = (other.run.runOn machine).2 ∧
        (program.run.runOn machine).1.mapError (Fault.relocate .nowhere) =
          (other.run.runOn machine).1.mapError (Fault.relocate .nowhere)) ∨
    ∃ index expected, FailsAt tokens index expected ∧ FailsAt others index expected := by
  obtain ⟨hfailure, hrest, hdone⟩ := Reading.run_of_alike h
  cases hexpected : (Reading.run 0 {} tokens).failure? with
  | none =>
    have hparse : parse tokens =
        .ok (.program (Reading.run 0 {} tokens).reading.done.reverse) := by
      rw [parse_eq_run, hexpected]
    have hparse' : parse others =
        .ok (.program (Reading.run 0 {} others).reading.done.reverse) := by
      rw [parse_eq_run, ← hfailure, hexpected]
    -- the statements are read latest first
    have hstatements := congrArg List.reverse hdone
    rw [← List.map_reverse, ← List.map_reverse] at hstatements
    obtain ⟨before, hbefore, hread⟩ := exists_statements_of_parse hparse
    obtain ⟨after, hafter, hread'⟩ := exists_statements_of_parse hparse'
    obtain rfl := Node.program.inj hbefore
    obtain rfl := Node.program.inj hafter
    refine .inl ⟨_, _, hparse, hparse', ?_, Node.run_of_relocate_eq hread hread' hstatements⟩
    rw [Node.relocate, Node.relocate, Node.relocateAll_eq_map, Node.relocateAll_eq_map, hstatements]
  | some expected =>
    have hfails := failsAt_of_failure? hexpected
    have hfails' := failsAt_of_failure? (hfailure ▸ hexpected)
    rw [← hrest, ← h.length_eq] at hfails'
    exact .inr ⟨_, expected, hfails, hfails'⟩

/-- The tokens of `print "a" - 1#;`, with more blanks and so on another line from the operator on. -/
def printDifference (blanks line : Nat) : List Token :=
  [⟨.print, "print", ⟨0, 1⟩⟩, ⟨.text, "\"a\"", ⟨6, 1⟩⟩, ⟨.minus, "-", ⟨9 + blanks, line⟩⟩,
   ⟨.number, "1", ⟨11 + blanks, line⟩⟩, ⟨.hash, "#", ⟨12 + blanks, line⟩⟩,
   ⟨.semicolon, ";", ⟨13 + blanks, line⟩⟩]

/-- The fault of the program of these tokens. -/
def differenceFault (line : Nat) : Fault := .type (.difference "-" .string .number line)

theorem parse_and_run_printDifference :
    List.Forall₂ Token.Alike (printDifference 1 1) (printDifference 4 3) ∧
      ∃ program other, parse (printDifference 1 1) = .ok program ∧
        parse (printDifference 4 3) = .ok other ∧
        program.relocate .nowhere = other.relocate .nowhere ∧
        (program.run.runOn ({ sink := {} } : Machine Buffer)).1 = .error (differenceFault 1) ∧
        (other.run.runOn ({ sink := {} } : Machine Buffer)).1 = .error (differenceFault 3) := by
  have halike : List.Forall₂ Token.Alike (printDifference 1 1) (printDifference 4 3) := by
    simp [printDifference, Token.Alike]
  refine ⟨halike, ?_⟩
  rcases parse_and_run_of_alike (σ := Buffer) halike with
    ⟨program, other, hparse, hparse', htree, _⟩ | ⟨index, expected, hfails, _⟩
  · refine ⟨program, other, hparse, hparse', htree, ?_, ?_⟩
    · obtain rfl := Except.ok.inj hparse
      rfl
    · obtain rfl := Except.ok.inj hparse'
      rfl
  · exact nomatch hfails.parse_eq

end EmojiScript
