import EmojiScript.Proofs.Evaluation.Journal

namespace EmojiScript

/-!
# Sinks with a limit

A sink that keeps so many bytes and no more shows what an evaluation does up to some point.  It takes
line after line until one does not fit, keeps what fits of this one, and refuses the rest, which ends
the evaluation.  The cut may be anywhere in the line, also within a character.

* `outputAfter` — what a buffer with room for everything holds behind actions.
* `Eval.runOn_performAll_of_fits` — with room for all lines, the limit makes no difference.
* `Eval.runOn_writeLine_of_not_fits` — of a line that does not fit, the bytes before the limit are
  kept.
* `Node.Crosses` — the line with which an evaluation crosses a limit.
* `evaluate_limited` — every node, and any limit.
-/

variable {buffer : Buffer} {limit : Nat} {context : Context}

/-! ### Output -/

/-- The bytes with the output of actions behind them. -/
def outputAfter (bytes : ByteArray) (actions : List Action) : ByteArray :=
  bytesAfter bytes (chunksOf actions)

theorem outputAfter_append (bytes : ByteArray) (actions more : List Action) :
    outputAfter bytes (actions ++ more) = outputAfter (outputAfter bytes actions) more := by
  rw [outputAfter, chunksOf_append, bytesAfter_append]
  rfl

theorem outputAfter_cons (bytes : ByteArray) (action : Action) (rest : List Action) :
    outputAfter bytes (action :: rest) = outputAfter (outputAfter bytes [action]) rest :=
  outputAfter_append bytes [action] rest

/-- Output only grows. -/
theorem size_le_size_outputAfter (bytes : ByteArray) (actions : List Action) :
    bytes.size ≤ (outputAfter bytes actions).size :=
  (extract_bytesAfter (Nat.le_refl _) _).1

/-- Output behind a limit does not change what stands before it. -/
theorem extract_outputAfter {bytes : ByteArray} (h : limit ≤ bytes.size) (actions : List Action) :
    (outputAfter bytes actions).extract 0 limit = bytes.extract 0 limit :=
  (extract_bytesAfter h _).2

/-- Output that does not stay within a limit crosses it with one of its lines. -/
theorem exists_crossing {bytes : ByteArray} {actions : List Action} (hroom : bytes.size ≤ limit)
    (h : limit < (outputAfter bytes actions).size) :
    ∃ before line later, actions = before ++ .write line :: later ∧
      (outputAfter bytes before).size ≤ limit ∧
      limit < (outputAfter bytes (before ++ [.write line])).size := by
  induction actions generalizing bytes with
  | nil => exact absurd h (Nat.not_lt.mpr hroom)
  | cons action rest ih =>
    by_cases hfirst : (outputAfter bytes [action]).size ≤ limit
    · rw [outputAfter_cons] at h
      obtain ⟨before, line, later, rfl, hbefore, hline⟩ := ih hfirst h
      refine ⟨action :: before, line, later, rfl, ?_, ?_⟩
      · rw [outputAfter_cons]
        exact hbefore
      · rw [List.cons_append, outputAfter_cons]
        exact hline
    · -- only lines add to the output
      cases action with
      | write line => exact ⟨[], line, rest, rfl, hroom, Nat.lt_of_not_le hfirst⟩
      | _ => exact absurd hroom hfirst

/-! ### Lines on a buffer with a limit -/

namespace Eval

/-- A buffer takes a text as it takes the bytes of it. -/
theorem runOn_write (text : String) (context : Context) (buffer : Buffer) :
    (write text).runOn ⟨context, buffer⟩ =
      ((buffer.write text.toUTF8).1.mapError .sink,
        ⟨context, (buffer.write text.toUTF8).2⟩) := rfl

/-- A text that fits is written. -/
theorem runOn_write_of_fits {text : String} (h : (buffer.bytes ++ text.toUTF8).size ≤ limit) :
    (write text).runOn ⟨context, buffer.limitedTo limit⟩ =
      (.ok (), ⟨context, (buffer.holding (buffer.bytes ++ text.toUTF8)).limitedTo limit⟩) := by
  rw [runOn_write, Buffer.write_of_fits h]
  rfl

/-- Of a text that does not fit, the bytes before the limit are written. -/
theorem runOn_write_of_not_fits {text : String} (hroom : buffer.bytes.size ≤ limit)
    (h : limit < (buffer.bytes ++ text.toUTF8).size) :
    (write text).runOn ⟨context, buffer.limitedTo limit⟩ =
      (.error (.sink buffer.overfull),
        ⟨context,
          (buffer.holding ((buffer.bytes ++ text.toUTF8).extract 0 limit)).limitedTo limit⟩) := by
  rw [runOn_write, Buffer.write_of_not_fits hroom h]
  rfl

/-- A line that fits is written. -/
theorem runOn_writeLine_of_fits {line : Line}
    (h : (bytesAfter buffer.bytes line.chunks).size ≤ limit) :
    (writeLine line.text).runOn ⟨context, buffer.limitedTo limit⟩ =
      (.ok (), ⟨context, (buffer.holding (bytesAfter buffer.bytes line.chunks)).limitedTo limit⟩) := by
  have hbreak : (buffer.bytes ++ line.text.toUTF8 ++ "\n".toUTF8).size ≤ limit := h
  have htext : (buffer.bytes ++ line.text.toUTF8).size ≤ limit := by
    rw [ByteArray.size_append] at hbreak
    omega
  rw [writeLine, runOn_bind, runOn_write_of_fits htext]
  exact runOn_write_of_fits hbreak

/-- Of a line that does not fit, the bytes before the limit are written. -/
theorem runOn_writeLine_of_not_fits {line : Line} (hroom : buffer.bytes.size ≤ limit)
    (h : limit < (bytesAfter buffer.bytes line.chunks).size) :
    (writeLine line.text).runOn ⟨context, buffer.limitedTo limit⟩ =
      (.error (.sink buffer.overfull),
        ⟨context, (buffer.holding
          ((bytesAfter buffer.bytes line.chunks).extract 0 limit)).limitedTo limit⟩) := by
  rw [writeLine, runOn_bind]
  by_cases htext : (buffer.bytes ++ line.text.toUTF8).size ≤ limit
  · -- the text still fits, and the line break does not
    rw [runOn_write_of_fits htext]
    exact runOn_write_of_not_fits htext h
  · -- nothing of the line break stands before the limit
    have hcut := Nat.lt_of_not_le htext
    rw [runOn_write_of_not_fits hroom hcut, ← extract_append_of_le (Nat.le_of_lt hcut) "\n".toUTF8]
    rfl

/-- Where all lines fit, everything is done. -/
theorem runOn_performAll_of_fits {actions : List Action}
    (h : (outputAfter buffer.bytes actions).size ≤ limit) :
    (performAll actions).runOn ⟨context, buffer.limitedTo limit⟩ =
      (.ok (), ⟨context.after actions,
        (buffer.holding (outputAfter buffer.bytes actions)).limitedTo limit⟩) := by
  induction actions generalizing buffer context with
  | nil => rfl
  | cons action rest ih =>
    rw [performAll_cons, runOn_bind]
    cases action with
    | define name value => exact ih h
    | defineAlias key text => exact ih h
    | write line =>
      rw [outputAfter_cons] at h ⊢
      have hline : (bytesAfter buffer.bytes line.chunks).size ≤ limit :=
        Nat.le_trans (size_le_size_outputAfter _ rest) h
      rw [Action.perform, runOn_writeLine_of_fits hline]
      exact ih h

/-- A line that does not fit ends what was to be done, whatever stands behind it. -/
theorem runOn_replay_of_not_fits {α : Type} (buffer : Buffer) (context : Context) {line : Line}
    (hroom : buffer.bytes.size ≤ limit)
    (h : limit < (outputAfter buffer.bytes [.write line]).size) (later : List Action)
    (result : Except Fault α) :
    (replay (.write line :: later) result).runOn ⟨context, buffer.limitedTo limit⟩ =
      (.error (.sink buffer.overfull),
        ⟨context, (buffer.holding
          ((outputAfter buffer.bytes [.write line]).extract 0 limit)).limitedTo limit⟩) := by
  rw [replay, performAll_cons, bind_assoc, runOn_bind, Action.perform,
    runOn_writeLine_of_not_fits hroom h]
  rfl

end Eval

/-! ### Evaluations with a limit -/

namespace Node

/-- With no limit, a buffer holds the whole output. -/
theorem runOn_evaluate_unlimited (node : Node) (context : Context) (buffer : Buffer) :
    node.evaluate.runOn ⟨context, buffer.unlimited⟩ =
      (node.ending context, ⟨context.after (node.actions context),
        (buffer.holding (outputAfter buffer.bytes (node.actions context))).unlimited⟩) := by
  rw [node.runOn_evaluate_of_neverFails buffer.neverFails_unlimited, Buffer.afterWrites_unlimited]
  rfl

/-- Without a limit, an evaluation comes to a line that crosses it: what was written before stays
within the limit, and with this line does not. -/
structure Crosses (node : Node) (context : Context) (buffer : Buffer) (limit : Nat)
    (before : List Action) (line : Line) (later : List Action) : Prop where
  actions_eq : node.actions context = before ++ .write line :: later
  size_le : (outputAfter buffer.bytes before).size ≤ limit
  lt_size : limit < (outputAfter buffer.bytes (before ++ [.write line])).size
  /-- Behind what came before, the evaluation goes on with this line. -/
  runOn_eq : node.evaluate.runOn ⟨context, buffer.unlimited⟩ =
    (Eval.replay (.write line :: later) (node.ending context)).runOn
      ⟨context.after before, (buffer.holding (outputAfter buffer.bytes before)).unlimited⟩

variable {node : Node} {before later : List Action} {line : Line}

/-- Output that does not stay within a limit crosses it. -/
theorem exists_crosses (hroom : buffer.bytes.size ≤ limit)
    (h : limit < (outputAfter buffer.bytes (node.actions context)).size) :
    ∃ before line later, Crosses node context buffer limit before line later := by
  obtain ⟨before, line, later, hactions, hbefore, hline⟩ := exists_crossing hroom h
  refine ⟨before, line, later, hactions, hbefore, hline, ?_⟩
  rw [runOn_evaluate_eq_replay, hactions, Eval.replay_append, Eval.runOn_bind,
    Eval.runOn_performAll buffer.neverFails_unlimited, Buffer.afterWrites_unlimited]
  rfl

/-- The limit ends the evaluation at the line that crosses it. -/
theorem Crosses.runOn_evaluate (h : Crosses node context buffer limit before line later) :
    node.evaluate.runOn ⟨context, buffer.limitedTo limit⟩ =
      (.error (.sink buffer.overfull), ⟨context.after before,
        (buffer.holding ((outputAfter buffer.bytes (node.actions context)).extract 0
          limit)).limitedTo limit⟩) := by
  -- the line fills the buffer, so whatever was noted behind it stands behind the limit
  have hline := h.lt_size
  rw [outputAfter_append] at hline
  have hcut : (outputAfter buffer.bytes (node.actions context)).extract 0 limit =
      (outputAfter (outputAfter buffer.bytes before) [.write line]).extract 0 limit := by
    rw [h.actions_eq, outputAfter_append, outputAfter_cons]
    exact extract_outputAfter (Nat.le_of_lt hline) later
  have hrefused := Eval.runOn_replay_of_not_fits
    (buffer.holding (outputAfter buffer.bytes before)) (context.after before) h.size_le hline later
    (node.ending context)
  rw [hcut, runOn_evaluate_eq_replay, h.actions_eq, Eval.replay_append, Eval.runOn_bind,
    Eval.runOn_performAll_of_fits h.size_le]
  exact hrefused

end Node

/-- **A sink with a limit sees the beginning.** Take a node, a context, and a buffer that holds no
more than its limit allows.  Without the limit the evaluation ends in some way and leaves some
output, and with the limit the buffer holds what of this stands before the limit.  If the output
stays within the limit, nothing else differs.  If it does not, the sink ends the evaluation, and
leaves the context in which the line that crosses the limit was about to be written. -/
theorem evaluate_limited (hroom : buffer.bytes.size ≤ limit) (node : Node) (context : Context) :
    ∃ result done output result' done',
      node.evaluate.runOn ⟨context, buffer.unlimited⟩ =
        (result, ⟨done, (buffer.holding output).unlimited⟩) ∧
      node.evaluate.runOn ⟨context, buffer.limitedTo limit⟩ =
        (result', ⟨done', (buffer.holding (output.extract 0 limit)).limitedTo limit⟩) ∧
      (output.size ≤ limit → result' = result ∧ done' = done) ∧
      (limit < output.size → result' = .error (.sink buffer.overfull) ∧
        ∃ before line later, Node.Crosses node context buffer limit before line later ∧
          done' = context.after before) := by
  have hunlimited := node.runOn_evaluate_unlimited context buffer
  by_cases hfits : (outputAfter buffer.bytes (node.actions context)).size ≤ limit
  · have hlimited : node.evaluate.runOn ⟨context, buffer.limitedTo limit⟩ =
        (node.ending context, ⟨context.after (node.actions context),
          (buffer.holding (outputAfter buffer.bytes (node.actions context))).limitedTo limit⟩) := by
      rw [node.runOn_evaluate_eq_replay, Eval.replay, Eval.runOn_bind,
        Eval.runOn_performAll_of_fits hfits]
      rfl
    rw [← extract_of_size_le hfits] at hlimited
    exact ⟨_, _, _, _, _, hunlimited, hlimited, fun _ => ⟨rfl, rfl⟩,
      fun hcrosses => absurd hfits (Nat.not_le_of_lt hcrosses)⟩
  · obtain ⟨before, line, later, hcrosses⟩ := Node.exists_crosses hroom (Nat.lt_of_not_le hfits)
    exact ⟨_, _, _, _, _, hunlimited, hcrosses.runOn_evaluate, fun h => absurd h hfits,
      fun _ => ⟨rfl, before, line, later, hcrosses, rfl⟩⟩

/-- The program of `x = "a"`, `print "😍"` and `x = "b"`. -/
def printBetween : Node :=
  .program
    [.assign ⟨.equals, "=", ⟨2, 1⟩⟩ (.leaf .word ⟨.word, "x", ⟨0, 1⟩⟩)
      (.leaf .text ⟨.text, "\"a\"", ⟨4, 1⟩⟩),
     .print ⟨.print, "print", ⟨10, 2⟩⟩ (.leaf .text ⟨.text, "\"😍\"", ⟨16, 2⟩⟩),
     .assign ⟨.equals, "=", ⟨27, 3⟩⟩ (.leaf .word ⟨.word, "x", ⟨25, 3⟩⟩)
      (.leaf .text ⟨.text, "\"b\"", ⟨29, 3⟩⟩)]

/-- Two bytes are half of the emoji. -/
theorem evaluate_limited_printBetween :
    (Buffer.bytes {}).size ≤ 2 ∧
      ∃ done', printBetween.evaluate.runOn ⟨{}, Buffer.limitedTo {} 2⟩ =
          (.error (.sink "sink is full"),
            ⟨done', (Buffer.holding {} ⟨#[0xF0, 0x9F]⟩).limitedTo 2⟩) ∧
        (∃ before line later, Node.Crosses printBetween {} {} 2 before line later ∧
          done' = Context.after {} before) ∧
        done'.scope.get? "x" = some (.text "a") := by
  have hroom : (Buffer.bytes {}).size ≤ 2 := by decide
  refine ⟨hroom, ?_⟩
  obtain ⟨result, done, output, result', done', hunlimited, hlimited, _, hcut⟩ :=
    evaluate_limited hroom printBetween {}
  have houtput : output = ⟨#[0xF0, 0x9F, 0x98, 0x8D, 0x0A]⟩ := by
    have hbytes := congrArg (fun run => run.2.sink.bytes) hunlimited
    exact hbytes.symm
  subst houtput
  obtain ⟨rfl, hcrosses⟩ := hcut (by decide)
  refine ⟨done', hlimited, hcrosses, ?_⟩
  have hvalue := congrArg (fun run => run.2.context.scope.get? "x") hlimited
  exact hvalue.symm

end EmojiScript
