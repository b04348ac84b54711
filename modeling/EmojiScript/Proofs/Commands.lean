import EmojiScript.Command
import EmojiScript.Proofs.Concatenation
import EmojiScript.Proofs.Evaluation.Faults
import EmojiScript.Proofs.Evaluation.Journal
import EmojiScript.Proofs.FaultLocation

namespace EmojiScript

/-!
# What the commands make of a file

Each command goes through the stages of the library as far as it has to: one goes on token by token,
one stops at the tree, one runs it.  They stop at the same fault.  A fault of the text is reported
with the status of static faults, and a run of a text that is a program can only stop with another
one.

* `Fault.isStatic_of_compile_error`, `Node.not_isStatic_of_run_error` — the two statuses.
* `RunsTo` — what the library does with a source, on every sink that takes all that it is given.
* `Follows` — what the commands have to do with a text, by what the library does with it.
* `commands_follow` — they do, with or without a log; and bytes that are no text stop them all.
-/

/-! ### Static faults and others -/

/-- A source that is no program has a static fault. -/
theorem Fault.isStatic_of_compile_error {source : String} {fault : Fault}
    (h : compile source = .error fault) : fault.isStatic = true := by
  cases htokens : tokenize source with
  | error lexical =>
    obtain rfl := Except.error.inj ((compile_of_tokenize_error htokens).symm.trans h)
    obtain ⟨_, _, _, _, rfl, _⟩ := exists_marks_of_tokenize htokens
    rfl
  | ok tokens =>
    rw [compile_of_tokenize htokens] at h
    obtain ⟨_, _, _, rfl⟩ := exists_suffix_of_parse h
    rfl

/-- No formula has a static fault. -/
theorem Node.Raises.not_isStatic {scope : Scope} {node : Node} {fault : Fault}
    (h : node.Raises scope fault) : fault.isStatic = false := by
  cases h with
  | @type op => cases op <;> rfl
  | _ => rfl

/-- Neither has a statement. -/
theorem Fault.ArisesIn.not_isStatic {fault : Fault} {statement : Node} {scope : Scope}
    (h : fault.ArisesIn statement scope) : fault.isStatic = false := by
  rcases h.cause with ⟨reason, rfl⟩ | ⟨formula, _, hraises⟩
  · rfl
  · exact hraises.not_isStatic

/-- **Runs have no static faults.** -/
theorem Node.not_isStatic_of_run_error {σ : Type} [Sink σ] {source : String} {program : Node}
    {machine after : Machine σ} {fault : Fault} (h : compile source = .ok program)
    (hrun : program.run.runOn machine = (.error fault, after)) : fault.isStatic = false := by
  obtain ⟨statements, rfl, hstatements⟩ := exists_statements_of_compile h
  rcases Node.evaluateAll_cases statements machine with
    ⟨done, hdone⟩ | ⟨earlier, statement, later, before, first, left, rfl, hearlier, hfails⟩
  · -- only the flush can fail then
    rw [hdone.runOn_run] at hrun
    obtain ⟨hresult, _⟩ := Prod.mk.inj hrun
    cases hflush : (Sink.flush done.sink).1 with
    | ok =>
      rw [hflush] at hresult
      cases hresult
    | error reason =>
      rw [hflush] at hresult
      obtain rfl := Except.error.inj hresult
      rfl
  · rw [hearlier.runOn_run_of_error hfails] at hrun
    obtain rfl := Except.error.inj (Prod.mk.inj hrun).1
    obtain ⟨hread, hdigits⟩ := hstatements statement (by simp)
    exact (hread.arisesIn_of_evaluate hdigits hfails).not_isStatic

/-! ### What the library does with a source -/

/-- No write is refused and no flush is, now or behind any writes. -/
structure Sink.TakesAll {σ : Type} [Sink σ] (sink : σ) : Prop where
  neverFails : NeverFails sink
  flushes : ∀ chunks, (flush (afterWrites sink chunks)).1 = .ok ()

/-- The library runs a source to this result and writes these chunks, on every sink that takes all
that it is given.  It flushes the sink where it succeeds. -/
def RunsTo (source : String) (result : Except Fault Context) (chunks : List ByteArray) : Prop :=
  ∀ (σ : Type) [Sink σ] (sink : σ), Sink.TakesAll sink →
    (runSource source sink).1 = result ∧
    (runSource source sink).2 =
      match result with
      | .ok _ => (Sink.flush (Sink.afterWrites sink chunks)).2
      | .error _ => Sink.afterWrites sink chunks

/-- A program runs as far as its statements go. -/
theorem runsTo_of_compile {source : String} {program : Node} (h : compile source = .ok program) :
    RunsTo source ((program.ending {}).map fun _ => Context.after {} (program.actions {}))
      (chunksOf (program.actions {})) := by
  intro σ _ sink htakes
  have hevaluate := Node.runOn_evaluate_of_neverFails htakes.neverFails program {}
  have hrun : Machine.runSource { sink } source = program.run.runOn { sink } :=
    Machine.runSource_of_ok h _
  rw [Node.run, Eval.runOn_bind, hevaluate] at hrun
  rw [runSource, hrun]
  cases program.ending {} with
  | error fault => exact ⟨rfl, rfl⟩
  | ok value? =>
    have hflush := htakes.flushes (chunksOf (program.actions {}))
    simp only [Eval.flush, Eval.runOn_onSink, hflush]
    exact ⟨rfl, rfl⟩

/-- A run that the library fails has no static fault. -/
theorem RunsTo.not_isStatic {source : String} {program : Node} {fault : Fault}
    {chunks : List ByteArray} (h : RunsTo source (.error fault) chunks)
    (hcompile : compile source = .ok program) {σ : Type} [Sink σ] {sink : σ}
    (htakes : Sink.TakesAll sink) : fault.isStatic = false := by
  obtain ⟨hresult, _⟩ := h σ sink htakes
  rw [runSource, Machine.runSource_of_ok hcompile] at hresult
  exact Node.not_isStatic_of_run_error hcompile (Prod.ext (Node.eq_error_of_map hresult) rfl)

namespace Buffer

theorem bytes_flush (buffer : Buffer) : buffer.flush.2.bytes = buffer.bytes := by
  unfold flush
  split <;> rfl

/-- The buffer of a command takes all that it is given. -/
theorem takesAll_empty : Sink.TakesAll ({} : Buffer) where
  neverFails := neverFails_unlimited {}
  flushes chunks := by
    rw [show ({} : Buffer) = unlimited {} from rfl, afterWrites_unlimited]
    rfl

theorem bytes_afterWrites_empty (chunks : List ByteArray) :
    (Sink.afterWrites ({} : Buffer) chunks).bytes = bytesAfter .empty chunks := by
  rw [show ({} : Buffer) = unlimited {} from rfl, afterWrites_unlimited]
  rfl

end Buffer

/-! ### Outcomes -/

/-- A command has ended with this status and has written these bytes and this text. -/
structure Outcome.Reports (outcome : Outcome) (status : Nat) (stdout : ByteArray)
    (stderr : String) : Prop where
  status_eq : outcome.status = status
  stdout_eq : outcome.stdout = stdout
  stderr_eq : outcome.stderr = stderr

/-- A command that has stopped with a static fault. -/
theorem Outcome.reports_of_isStatic {fault : Fault} (h : fault.isStatic = true)
    (stdout : ByteArray) :
    (failure stdout fault).Reports 65 stdout (fault.message ++ "\n") where
  status_eq := by simp [failure, Fault.status, h]
  stdout_eq := rfl
  stderr_eq := rfl

/-- A command that has stopped with any other fault. -/
theorem Outcome.reports_of_not_isStatic {fault : Fault} (h : fault.isStatic = false)
    (stdout : ByteArray) :
    (failure stdout fault).Reports 70 stdout (fault.message ++ "\n") where
  status_eq := by simp [failure, Fault.status, h]
  stdout_eq := rfl
  stderr_eq := rfl

/-- A command that has come to its end. -/
theorem Outcome.reports_success (stdout : ByteArray) : (success stdout).Reports 0 stdout "" where
  status_eq := rfl
  stdout_eq := rfl
  stderr_eq := rfl

/-- What the commands have to do with a text, by what the library does with it: `outcome` is what
they do. -/
structure Follows (source : String) (outcome : Command → Outcome) : Prop where
  /-- A fault of the scan stops all of them, and one lists the tokens before it. -/
  scan : ∀ fault, tokenize source = .error fault →
    (∃ tokens, Scanner.Completes Kind.catalog (.ofString source) tokens (some fault) ∧
      (outcome .tokenize).Reports 65 (Command.listing tokens).toUTF8 (fault.message ++ "\n")) ∧
    (∀ json, (outcome (.parse json)).Reports 65 .empty (fault.message ++ "\n")) ∧
    (outcome .run).Reports 65 .empty (fault.message ++ "\n")
  /-- The tokens of a text are listed whether they are a program or not. -/
  list : ∀ tokens, tokenize source = .ok tokens →
    (outcome .tokenize).Reports 0 (Command.listing tokens).toUTF8 ""
  /-- A fault of the program stops the two others. -/
  read : ∀ tokens fault, tokenize source = .ok tokens → parse tokens = .error fault →
    (∀ json, (outcome (.parse json)).Reports 65 .empty (fault.message ++ "\n")) ∧
    (outcome .run).Reports 65 .empty (fault.message ++ "\n")
  /-- A program is shown. -/
  shown : ∀ tokens program, tokenize source = .ok tokens → parse tokens = .ok program →
    ∀ json, (outcome (.parse json)).Reports 0 (Command.rendering json program).toUTF8 ""
  /-- A program is run as the library runs it. -/
  run : ∀ tokens program, tokenize source = .ok tokens → parse tokens = .ok program →
    ∃ result chunks, RunsTo source result chunks ∧
      (∀ context, result = .ok context →
        (outcome .run).Reports 0 (bytesAfter .empty chunks) "") ∧
      ∀ fault, result = .error fault →
        (outcome .run).Reports 70 (bytesAfter .empty chunks) (fault.message ++ "\n")

namespace Command

variable {source : String}

theorem onSource_parse_of_compile_error {fault : Fault} (h : compile source = .error fault)
    (json : Bool) : (parse json).onSource source = .failure .empty fault := by
  rw [onSource, h]

theorem onSource_run_of_compile_error {fault : Fault} (h : compile source = .error fault) :
    run.onSource source = .failure .empty fault := by
  rw [onSource, runSource, Machine.runSource_of_error h]
  rfl

/-- A source with a static fault is neither shown nor run. -/
theorem reports_of_compile_error {fault : Fault} (h : compile source = .error fault) :
    (∀ json, ((parse json).onSource source).Reports 65 .empty (fault.message ++ "\n")) ∧
      (run.onSource source).Reports 65 .empty (fault.message ++ "\n") := by
  have hreports := Outcome.reports_of_isStatic (Fault.isStatic_of_compile_error h) .empty
  rw [onSource_run_of_compile_error h]
  refine ⟨?_, hreports⟩
  intro json
  rw [onSource_parse_of_compile_error h]
  exact hreports

variable {chunks : List ByteArray}

/-- A command has what the library writes in its buffer. -/
theorem exists_buffer_of_runsTo {result : Except Fault Context} (h : RunsTo source result chunks) :
    ∃ buffer, runSource source ({} : Buffer) = (result, buffer) ∧
      buffer.bytes = bytesAfter .empty chunks := by
  obtain ⟨hresult, hsink⟩ := h Buffer {} Buffer.takesAll_empty
  refine ⟨(runSource source ({} : Buffer)).2, Prod.ext hresult rfl, ?_⟩
  rw [hsink]
  cases result with
  | ok => exact (Buffer.bytes_flush _).trans (Buffer.bytes_afterWrites_empty chunks)
  | error => exact Buffer.bytes_afterWrites_empty chunks

/-- A program that comes to its end in the library comes to its end as a command. -/
theorem onSource_run_of_ok {context : Context} (h : RunsTo source (.ok context) chunks) :
    run.onSource source = .success (bytesAfter .empty chunks) := by
  obtain ⟨buffer, hrun, hbytes⟩ := exists_buffer_of_runsTo h
  rw [onSource, hrun, ← hbytes]

/-- A program that is stopped in the library is stopped as a command. -/
theorem onSource_run_of_error {fault : Fault} (h : RunsTo source (.error fault) chunks) :
    run.onSource source = .failure (bytesAfter .empty chunks) fault := by
  obtain ⟨buffer, hrun, hbytes⟩ := exists_buffer_of_runsTo h
  rw [onSource, hrun, ← hbytes]

/-- **Commands follow the library.** -/
theorem follows_onSource (source : String) :
    Follows source fun command => command.onSource source where
  scan fault h := by
    have hcompile := compile_of_tokenize_error h
    refine ⟨?_, reports_of_compile_error hcompile⟩
    obtain ⟨tokens, hcollect⟩ := exists_collect_of_tokenize h
    refine ⟨tokens, (Scanner.collect_eq_iff source).mp hcollect, ?_⟩
    rw [onSource, hcollect]
    exact Outcome.reports_of_isStatic (Fault.isStatic_of_compile_error hcompile) _
  list tokens h := by
    rw [onSource, collect_of_tokenize h]
    exact Outcome.reports_success _
  read tokens fault h hparse := reports_of_compile_error ((compile_of_tokenize h).trans hparse)
  shown tokens program h hparse json := by
    rw [onSource, (compile_of_tokenize h).trans hparse]
    exact Outcome.reports_success _
  run tokens program h hparse := by
    have hcompile := (compile_of_tokenize h).trans hparse
    have hruns := runsTo_of_compile hcompile
    refine ⟨_, _, hruns, ?_, ?_⟩
    · intro context hcontext
      rw [hcontext] at hruns
      rw [onSource_run_of_ok hruns]
      exact Outcome.reports_success _
    · intro fault hfault
      rw [hfault] at hruns
      rw [onSource_run_of_error hruns]
      exact Outcome.reports_of_not_isStatic (hruns.not_isStatic hcompile Buffer.takesAll_empty) _

end Command

/-! ### Files -/

/-- A log changes nothing else. -/
theorem Outcome.Reports.logged {outcome : Outcome} {status : Nat} {stdout : ByteArray}
    {stderr : String} (h : outcome.Reports status stdout stderr) (logged : Bool) :
    { outcome with logged }.Reports status stdout stderr where
  status_eq := h.status_eq
  stdout_eq := h.stdout_eq
  stderr_eq := h.stderr_eq

theorem Follows.logged {source : String} {outcome : Command → Outcome} (h : Follows source outcome)
    (logged : Bool) : Follows source fun command => { outcome command with logged } where
  scan fault hfault := by
    obtain ⟨⟨tokens, hcompletes, hlisted⟩, hparse, hrun⟩ := h.scan fault hfault
    exact ⟨⟨tokens, hcompletes, hlisted.logged logged⟩, fun json => (hparse json).logged logged,
      hrun.logged logged⟩
  list tokens htokens := (h.list tokens htokens).logged logged
  read tokens fault htokens hfault := by
    obtain ⟨hparse, hrun⟩ := h.read tokens fault htokens hfault
    exact ⟨fun json => (hparse json).logged logged, hrun.logged logged⟩
  shown tokens program htokens hprogram json :=
    (h.shown tokens program htokens hprogram json).logged logged
  run tokens program htokens hprogram := by
    obtain ⟨result, chunks, hruns, hok, hfails⟩ := h.run tokens program htokens hprogram
    exact ⟨result, chunks, hruns, fun context hcontext => (hok context hcontext).logged logged,
      fun fault hfault => (hfails fault hfault).logged logged⟩

/-- The outcome of a command on a file with these bytes, with a log or without. -/
def Command.onFile (command : Command) (log : Bool) (name : String) (bytes : ByteArray) : Outcome :=
  Invocation.execute ⟨command, log⟩ (.file name bytes)

/-- A file that holds a text is that text to a command. -/
theorem Command.onFile_toUTF8 (command : Command) (log : Bool) (name source : String) :
    command.onFile log name source.toUTF8 = { command.onSource source with logged := log } := by
  simp only [onFile, Invocation.execute, execute, Input.source, Utf8.decode_toUTF8]

/-- **Commands on files.** With a log or without, no command works on bytes that are no text.  On a
text they follow the library: a fault of the scan stops all three, behind a listing of the tokens
before it in one case and without any output in the others; a fault of the program stops the last
two, without any output; a program is shown, and is run with the output and to the result that it
has on every sink that takes all that it is given. -/
theorem commands_follow (log : Bool) (name : String) :
    (∀ bytes : ByteArray, (∀ source : String, bytes ≠ source.toUTF8) → ∀ command : Command,
      (command.onFile log name bytes).status = 1 ∧
        (command.onFile log name bytes).stdout = .empty) ∧
    ∀ source : String, Follows source fun command => command.onFile log name source.toUTF8 := by
  refine ⟨?_, ?_⟩
  · intro bytes hbytes command
    cases hdecode : Utf8.decode bytes with
    | ok source => exact absurd (Utf8.decode_eq_ok_iff.mp hdecode) (hbytes source)
    | error fault =>
      simp only [Command.onFile, Invocation.execute, Command.execute, Input.source, hdecode]
      exact ⟨rfl, rfl⟩
  · intro source
    simp only [Command.onFile_toUTF8]
    exact (Command.follows_onSource source).logged log

/-- The statements of `print "a"#;print x#;`, of which the second fails. -/
def printTextThenMissing : List Node :=
  [.print ⟨.print, "print", ⟨0, 1⟩⟩ (.leaf .text ⟨.text, "\"a\"", ⟨6, 1⟩⟩),
   .print ⟨.print, "print", ⟨11, 1⟩⟩ (.leaf .word ⟨.word, "x", ⟨17, 1⟩⟩)]

/-- The line of the first statement has been written when the second one stops the command. -/
theorem commands_follow_printTextThenMissing :
    (Command.run.onFile true "input.emo" "print \"a\"#;print x#;".toUTF8).Reports 70 "a\n".toUTF8
      "Runtime error: Undefined variable 'x'\n" := by
  have hcollect : (Scanner.ofString "print \"a\"#;print x#;").collect =
      ([⟨.print, "print", ⟨0, 1⟩⟩, ⟨.text, "\"a\"", ⟨6, 1⟩⟩, ⟨.hash, "#", ⟨9, 1⟩⟩,
        ⟨.semicolon, ";", ⟨10, 1⟩⟩, ⟨.print, "print", ⟨11, 1⟩⟩, ⟨.word, "x", ⟨17, 1⟩⟩,
        ⟨.hash, "#", ⟨18, 1⟩⟩, ⟨.semicolon, ";", ⟨19, 1⟩⟩], none) := by decide +kernel
  have htokens := tokenize_of_collect hcollect
  have hcompile : compile "print \"a\"#;print x#;" = .ok (.program printTextThenMissing) := by
    rw [compile_of_tokenize htokens]
    rfl
  have hfollows := (commands_follow true "input.emo").2 "print \"a\"#;print x#;"
  obtain ⟨result, chunks, hruns, _, hfails⟩ := hfollows.run _ _ htokens rfl
  obtain ⟨buffer, hrun, hbytes⟩ := Command.exists_buffer_of_runsTo hruns
  have hlibrary : runSource "print \"a\"#;print x#;" ({} : Buffer) =
      (.error (.undefinedVariable "x"), { bytes := "a\n".toUTF8 }) := by
    rw [runSource, Machine.runSource_of_ok hcompile]
    rfl
  obtain ⟨rfl, rfl⟩ := Prod.mk.inj (hrun.symm.trans hlibrary)
  rw [show "a\n".toUTF8 = bytesAfter .empty chunks from hbytes]
  exact hfails _ rfl

end EmojiScript
