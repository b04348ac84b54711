import EmojiScript.Proofs.Evaluation.Relocation
import EmojiScript.Proofs.Parser.Append
import EmojiScript.Proofs.Scanner.Append

namespace EmojiScript

open Grammar

/-!
# One source behind another

A source that is a program ends, blanks aside, with the semicolon of its last statement or is blank
altogether.  So it can be followed by any text: its tokens and its statements stay, those of the
text follow with their places moved, and it is run before the text is.  The text then finds the
machine that the source leaves; alone, the source would have flushed its sink first.

* `last_kind_of_prescribes` — how a program ends.
* `compile_append_of_ok`, `compile_append_of_error` — the program of both.
* `runSource_append` — tokens, program and run of both.
-/

variable {source text : String} {before after : List Node} {fault : Fault}

/-! ### The program of both -/

/-- A program ends with a semicolon, if it has tokens at all. -/
theorem last_kind_of_prescribes {tokens : List Token} {program : Node}
    (h : Prescribes .program tokens program) :
    ∀ last, tokens.getLast? = some last → last.kind = .semicolon := by
  generalize hphrase : Phrase.program = phrase at h
  induction h with
  | done => simp
  | @next _ rest hash semicolon _ _ _ _ hsemicolon _ _ ih =>
    intro last hlast
    cases hrest : rest.getLast? with
    | none =>
      obtain rfl : semicolon = last := by
        simpa [List.getLast?_append, List.getLast?_cons, hrest] using hlast
      exact hsemicolon
    | some _ =>
      refine ih hphrase last ?_
      simpa [List.getLast?_append, List.getLast?_cons, hrest] using hlast
  | _ => cases hphrase

/-- The tokens of a program stay, and those of a text behind it follow. -/
theorem exists_tokenize_append (h : compile source = .ok (.program before)) (text : String) :
    ∃ tokens, tokenize source = .ok tokens ∧ parse tokens = .ok (.program before) ∧
      tokenize (source ++ text) =
        ((tokenize text).mapError (Fault.relocate (.behind source))).map
          fun more => tokens ++ more.map (Token.relocate (.behind source)) := by
  obtain ⟨tokens, htokens, hparse⟩ := compile_eq_ok_iff.mp h
  have hlast := last_kind_of_prescribes (parse_eq_ok_iff.mp hparse).1
  exact ⟨tokens, htokens, hparse, tokenize_append htokens hlast text⟩

theorem compile_append_of_ok (h : compile source = .ok (.program before))
    (htext : compile text = .ok (.program after)) :
    compile (source ++ text) =
      .ok (.program (before ++ after.map (Node.relocate (.behind source)))) := by
  obtain ⟨tokens, _, hparse, happend⟩ := exists_tokenize_append h text
  obtain ⟨more, hmore, hparse'⟩ := compile_eq_ok_iff.mp htext
  rw [hmore] at happend
  rw [compile_of_tokenize happend]
  exact parse_append_of_ok hparse _ hparse'

theorem compile_append_of_error (h : compile source = .ok (.program before))
    (htext : compile text = .error fault) :
    compile (source ++ text) = .error (fault.relocate (.behind source)) := by
  obtain ⟨tokens, _, hparse, happend⟩ := exists_tokenize_append h text
  cases hmore : tokenize text with
  | error lexical =>
    obtain rfl := Except.error.inj (htext.symm.trans (compile_of_tokenize_error hmore))
    rw [hmore] at happend
    exact compile_of_tokenize_error happend
  | ok more =>
    rw [hmore] at happend
    rw [compile_of_tokenize happend]
    refine parse_append_of_error hparse source ?_
    rw [← compile_of_tokenize hmore, htext]

/-! ### The run of both -/

variable {σ : Type} [Sink σ]

theorem Machine.runSource_of_ok {program : Node} (h : compile source = .ok program)
    (machine : Machine σ) : machine.runSource source = program.run.runOn machine := by
  rw [runSource, h]

theorem Machine.runSource_of_error (h : compile source = .error fault) (machine : Machine σ) :
    machine.runSource source = (.error fault, machine) := by
  rw [runSource, h]

/-- Statements are evaluated before those that follow them are run. -/
theorem Node.run_append (before after : List Node) :
    (program (before ++ after)).run (σ := σ) = (do
      let _ ← (program before).evaluate
      (program after).run) := by
  simp only [run, evaluate_program, evaluateAll_append, bind_assoc, pure_bind]

/-- **One source behind another.** Let a source be a program, and put any text behind it.  Its
tokens stay and those of the text follow elsewhere, or the fault of the text is reported elsewhere.
If the text is no program, the whole fails as the text does, elsewhere, and does nothing.
Otherwise the statements of the text follow those of the source, and the whole runs as the source
does, without the flush at its end, and then as the text does on the machine that is left, with its
faults elsewhere. -/
theorem runSource_append (h : compile source = .ok (.program before)) (text : String) :
    (∃ tokens, tokenize source = .ok tokens ∧
      tokenize (source ++ text) =
        ((tokenize text).mapError (Fault.relocate (.behind source))).map
          fun more => tokens ++ more.map (Token.relocate (.behind source))) ∧
    ((∃ fault, compile text = .error fault ∧
        compile (source ++ text) = .error (fault.relocate (.behind source)) ∧
        ∀ machine : Machine σ,
          machine.runSource (source ++ text) = (.error (fault.relocate (.behind source)), machine)) ∨
      ∃ after, compile text = .ok (.program after) ∧
        compile (source ++ text) =
          .ok (.program (before ++ after.map (Node.relocate (.behind source)))) ∧
        ∀ machine : Machine σ, machine.runSource (source ++ text) =
          match (Node.program before).evaluate.runOn machine with
          | (.ok _, between) =>
            ((between.runSource text).1.mapError (Fault.relocate (.behind source)),
              (between.runSource text).2)
          | (.error fault, stopped) => (.error fault, stopped)) := by
  refine ⟨?_, ?_⟩
  · obtain ⟨tokens, htokens, _, happend⟩ := exists_tokenize_append h text
    exact ⟨tokens, htokens, happend⟩
  · cases htext : compile text with
    | error fault =>
      have hwhole := compile_append_of_error h htext
      exact .inl ⟨fault, rfl, hwhole, Machine.runSource_of_error hwhole⟩
    | ok program =>
      obtain ⟨more, _, hparse⟩ := compile_eq_ok_iff.mp htext
      obtain ⟨after, rfl, hafter⟩ := exists_statements_of_parse hparse
      have hwhole := compile_append_of_ok h htext
      refine .inr ⟨after, rfl, hwhole, ?_⟩
      intro machine
      rw [Machine.runSource_of_ok hwhole, Node.run_append, Eval.runOn_bind]
      rcases (Node.program before).evaluate.runOn machine with ⟨fault | _, between⟩
      · rfl
      · -- the statements of the text run elsewhere as they do in it
        simp only [Machine.runSource_of_ok htext]
        exact Node.relocates_run hafter between

/-- A program of one assignment, on a line of its own. -/
def assignOne : String := "x = 1#;\n"

/-- The program of `assignOne`. -/
def assignOneTree : Node :=
  .assign ⟨.equals, "=", ⟨2, 1⟩⟩ (.leaf .word ⟨.word, "x", ⟨0, 1⟩⟩)
    (.leaf .number ⟨.number, "1", ⟨4, 1⟩⟩)

/-- A program that fails on its first line where `x` is an integer. -/
def joinText : String := "print x + \"!\"#;"

/-- The program of `joinText`. -/
def joinTextTree : Node :=
  .print ⟨.print, "print", ⟨0, 1⟩⟩ (.formula .add ⟨.plus, "+", ⟨8, 1⟩⟩
    (.leaf .word ⟨.word, "x", ⟨6, 1⟩⟩) (.leaf .text ⟨.text, "\"!\"", ⟨10, 1⟩⟩))

theorem runSource_assignOne_joinText :
    compile assignOne = .ok (.program [assignOneTree]) ∧
      compile joinText = .ok (.program [joinTextTree]) ∧
      (Machine.runSource ({ sink := {} } : Machine Buffer) (assignOne ++ joinText)).1 =
        .error (.type (.sum .number .string 2)) := by
  have hcollect : (Scanner.ofString assignOne).collect =
      ([⟨.word, "x", ⟨0, 1⟩⟩, ⟨.equals, "=", ⟨2, 1⟩⟩, ⟨.number, "1", ⟨4, 1⟩⟩,
        ⟨.hash, "#", ⟨5, 1⟩⟩, ⟨.semicolon, ";", ⟨6, 1⟩⟩], none) := by decide +kernel
  have hfirst : compile assignOne = .ok (.program [assignOneTree]) := by
    rw [compile_of_tokenize (tokenize_of_collect hcollect)]
    rfl
  have hcollect' : (Scanner.ofString joinText).collect =
      ([⟨.print, "print", ⟨0, 1⟩⟩, ⟨.word, "x", ⟨6, 1⟩⟩, ⟨.plus, "+", ⟨8, 1⟩⟩,
        ⟨.text, "\"!\"", ⟨10, 1⟩⟩, ⟨.hash, "#", ⟨13, 1⟩⟩, ⟨.semicolon, ";", ⟨14, 1⟩⟩], none) := by
    decide +kernel
  have hsecond : compile joinText = .ok (.program [joinTextTree]) := by
    rw [compile_of_tokenize (tokenize_of_collect hcollect')]
    rfl
  refine ⟨hfirst, hsecond, ?_⟩
  rcases (runSource_append (σ := Buffer) hfirst joinText).2 with
    ⟨fault, hfault, _⟩ | ⟨after, _, _, hrun⟩
  · rw [hsecond] at hfault
    cases hfault
  · rw [hrun]
    simp only [Machine.runSource_of_ok hsecond]
    rfl

end EmojiScript
