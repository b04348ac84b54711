import EmojiScript.Proofs.Evaluation.Kinds
import EmojiScript.Proofs.Relocation

namespace EmojiScript

/-!
# Kinds predict the run

A run goes in step with the run on kinds of the same statements for as long as it does not break
off for a number that does not fit or at its sink.  Variables without a value and operands of the
wrong kinds are thus found at the same statement and at the same token, whatever the values are and
whatever the literals of the program.

* `Node.StopsAt`, `Node.StopsOnKindsAt` — where the two runs stop, and why.
* `Node.StopsAt.stopsOnKindsAt`, `Node.StopsOnKindsAt.stopsAt` — they stop alike.
* `Node.skeleton` — a program without its literals and places.
* `kinds_predict_run` — programs of a source.
-/

namespace Node

variable {σ : Type} [Sink σ]

/-! ### Runs -/

variable {statements : List Node} {machine before : Machine σ} {index : Nat} {failure : Failure}

/-- A run is ended by a fault of values. -/
def BreaksOff (statements : List Node) (machine : Machine σ) : Prop :=
  ∃ fault after, (program statements).run.runOn machine = (.error fault, after) ∧ fault.IsOfValues

/-- A run is ended by a statement that fails at the token of the failure, all before it having
succeeded. -/
def StopsAt (statements : List Node) (machine : Machine σ) (index : Nat) (failure : Failure) :
    Prop :=
  ∃ statement before after, statements[index]? = some statement ∧
    Succeed (statements.take index) machine before ∧
    statement.FailsAt before.context.scope failure ∧
    statement.evaluate.runOn before = (.error failure.fault, after) ∧
    (program statements).run.runOn machine = (.error failure.fault, after)

/-- The run on kinds is ended by a statement with this failure. -/
def StopsOnKindsAt (statements : List Node) (kinds : Kinds) (index : Nat) (failure : Failure) :
    Prop :=
  ∃ statement reached, statements[index]? = some statement ∧
    (statements.take index).foldlM Kinds.step kinds = .ok reached ∧
    reached.step statement = .error failure

/-- A list is what stands before one of its items, the item and what stands behind it. -/
theorem eq_take_append_drop {statement : Node} (h : statements[index]? = some statement) :
    statements = statements.take index ++ statement :: statements.drop (index + 1) := by
  obtain ⟨hlt, rfl⟩ := List.getElem?_eq_some_iff.mp h
  rw [← List.drop_eq_getElem_cons hlt, List.take_append_drop]

/-- Statements that succeed leave the kinds that were inferred. -/
theorem Succeed.foldlM_step (h : Succeed statements machine before)
    (hstatements : ∀ statement ∈ statements, statement.IsStatement) :
    statements.foldlM Kinds.step machine.context.scope.kinds = .ok before.context.scope.kinds := by
  induction h with
  | nil => rfl
  | @cons statement rest machine next last value? hrun _ ih =>
    obtain ⟨hstatement, hrest⟩ := List.forall_mem_cons.mp hstatements
    -- a statement that succeeds is in the first case
    rcases hstatement.step_cases machine with
      ⟨_, after, hok, hstep⟩ | ⟨_, _, hfails, _⟩ | ⟨_, _, hfails, _⟩
    · obtain ⟨_, rfl⟩ := Prod.mk.inj (hok.symm.trans hrun)
      rw [List.foldlM_cons, hstep]
      exact ih hrest
    · rw [hrun] at hfails
      cases hfails
    · rw [hrun] at hfails
      cases hfails

/-- Statements that go through on kinds succeed, or a fault of values ends them. -/
theorem exists_succeed_of_foldlM {reached : Kinds}
    (hstatements : ∀ statement ∈ statements, statement.IsStatement)
    (h : statements.foldlM Kinds.step machine.context.scope.kinds = .ok reached) :
    (∃ before, Succeed statements machine before ∧ before.context.scope.kinds = reached) ∨
    ∃ earlier statement later before fault after, statements = earlier ++ statement :: later ∧
      Succeed earlier machine before ∧ statement.evaluate.runOn before = (.error fault, after) ∧
      fault.IsOfValues := by
  rcases evaluateAll_cases statements machine with
    ⟨before, hsucceed⟩ | ⟨earlier, statement, later, before, fault, after, rfl, hearlier, hfails⟩
  · have hkinds := hsucceed.foldlM_step hstatements
    exact .inl ⟨before, hsucceed, Except.ok.inj (hkinds.symm.trans h)⟩
  · refine .inr ⟨earlier, statement, later, before, fault, after, rfl, hearlier, hfails, ?_⟩
    have hkinds := hearlier.foldlM_step fun s hs => hstatements s (List.mem_append_left _ hs)
    rcases (hstatements statement (by simp)).step_cases before with
      ⟨_, _, hok, _⟩ | ⟨failure, _, _, _, _, hstep⟩ | ⟨_, _, hfails', hvalues⟩
    · rw [hfails] at hok
      cases hok
    · -- on kinds the statement would have failed as well
      rw [List.foldlM_append, hkinds] at h
      change (before.context.scope.kinds.step statement >>= _) = _ at h
      rw [hstep] at h
      cases h
    · obtain ⟨hfault, _⟩ := Prod.mk.inj (hfails.symm.trans hfails')
      exact Except.error.inj hfault ▸ hvalues

/-- A run that does not break off fails by kinds, and as the run on kinds does. -/
theorem StopsAt.stopsOnKindsAt (h : StopsAt statements machine index failure)
    (hstatements : ∀ statement ∈ statements, statement.IsStatement)
    (hrun : ¬ BreaksOff statements machine) :
    StopsOnKindsAt statements machine.context.scope.kinds index failure ∧
      failure.fault.IsOfKinds := by
  obtain ⟨statement, before, after, hget, hsucceed, ⟨formula, hformula, hlocate⟩, hfails, hends⟩ := h
  have hfold := hsucceed.foldlM_step fun s hs => hstatements s (List.mem_of_mem_take hs)
  rcases (hstatements statement (List.mem_of_getElem? hget)).step_cases before with
    ⟨_, _, hok, _⟩ | ⟨failure', _, _, ⟨formula', hformula', hlocate'⟩, hkinds, hstep⟩ |
      ⟨_, _, hfails', hvalues⟩
  · rw [hfails] at hok
    cases hok
  · -- both failures are that of the formula of the statement
    obtain rfl := Option.some.inj (hformula.symm.trans hformula')
    obtain rfl := Except.error.inj (hlocate.symm.trans hlocate')
    exact ⟨⟨statement, before.context.scope.kinds, hget, hfold, hstep⟩, hkinds⟩
  · obtain ⟨hfault, _⟩ := Prod.mk.inj (hfails.symm.trans hfails')
    rw [← Except.error.inj hfault] at hvalues
    exact absurd ⟨failure.fault, after, hends, hvalues⟩ hrun

/-- A failure on kinds is one on values, unless a fault of values ends the run. -/
theorem StopsOnKindsAt.stopsAt
    (h : StopsOnKindsAt statements machine.context.scope.kinds index failure)
    (hstatements : ∀ statement ∈ statements, statement.IsStatement)
    (hrun : ¬ BreaksOff statements machine) :
    StopsAt statements machine index failure := by
  obtain ⟨statement, reached, hget, hfold, hstep⟩ := h
  have hsplit := eq_take_append_drop hget
  rcases exists_succeed_of_foldlM
      (fun s hs => hstatements s (List.mem_of_mem_take hs)) hfold with
    ⟨before, hsucceed, rfl⟩ | ⟨earlier, first, later, before, fault, after, htake, hearlier, hfails,
      hvalues⟩
  · have hends : ∀ {fault after}, statement.evaluate.runOn before = (.error fault, after) →
        (program statements).run.runOn machine = (.error fault, after) := by
      intro fault after hfails
      rw [hsplit]
      exact hsucceed.runOn_run_of_error hfails _
    rcases (hstatements statement (List.mem_of_getElem? hget)).step_cases before with
      ⟨_, _, _, hstep'⟩ | ⟨failure', after, hfails, hfailsAt, _, hstep'⟩ |
        ⟨fault, after, hfails, hvalues⟩
    · rw [hstep] at hstep'
      cases hstep'
    · obtain rfl := Except.error.inj (hstep.symm.trans hstep')
      exact ⟨statement, before, after, hget, hsucceed, hfailsAt, hfails, hends hfails⟩
    · exact absurd ⟨fault, after, hends hfails, hvalues⟩ hrun
  · refine absurd ⟨fault, after, ?_, hvalues⟩ hrun
    rw [hsplit, htake, List.append_assoc, List.cons_append]
    exact hearlier.runOn_run_of_error hfails _

/-- A run that fails and does not break off is ended by one of its statements. -/
theorem exists_stopsAt {fault : Fault} {after : Machine σ}
    (h : (program statements).run.runOn machine = (.error fault, after))
    (hstatements : ∀ statement ∈ statements, statement.IsStatement)
    (hrun : ¬ BreaksOff statements machine) :
    ∃ index failure, failure.fault = fault ∧ StopsAt statements machine index failure := by
  rcases evaluateAll_cases statements machine with
    ⟨done, hdone⟩ | ⟨earlier, statement, later, before, first, left, rfl, hearlier, hfails⟩
  · -- the sink refuses the flush
    refine absurd ⟨fault, after, h, ?_⟩ hrun
    rw [hdone.runOn_run] at h
    obtain ⟨hresult, _⟩ := Prod.mk.inj h
    cases hflush : (Sink.flush done.sink).1 with
    | ok =>
      rw [hflush] at hresult
      cases hresult
    | error reason =>
      rw [hflush] at hresult
      obtain rfl := Except.error.inj hresult
      trivial
  · have hends := hearlier.runOn_run_of_error hfails later
    obtain ⟨hresult, rfl⟩ := Prod.mk.inj (hends.symm.trans h)
    obtain rfl := Except.error.inj hresult
    rcases (hstatements statement (by simp)).step_cases before with
      ⟨_, _, hok, _⟩ | ⟨failure, _, hfails', hfailsAt, _⟩ | ⟨_, _, hfails', hvalues⟩
    · rw [hfails] at hok
      cases hok
    · obtain ⟨hfault, _⟩ := Prod.mk.inj (hfails.symm.trans hfails')
      obtain rfl := Except.error.inj hfault
      exact ⟨earlier.length, failure, rfl, statement, before, left, by simp, by simpa using hearlier,
        hfailsAt, hfails, hends⟩
    · obtain ⟨hfault, _⟩ := Prod.mk.inj (hfails.symm.trans hfails')
      rw [← Except.error.inj hfault] at hvalues
      exact absurd ⟨first, left, h, hvalues⟩ hrun

end Node

/-! ### Literals and places -/

/-- The failure that names places elsewhere. -/
def Failure.relocate (move : Relocation) (failure : Failure) : Failure where
  token? := failure.token?.map (Token.relocate move)
  fault := failure.fault.relocate move

/-- A failure without its places. -/
def Failure.skeleton (failure : Failure) : Failure := failure.relocate .nowhere

namespace Node

/-- A statement or formula with its numerals and texts emptied. -/
def withoutLiterals : Node → Node
  | leaf .number token => leaf .number { token with text := "" }
  | leaf .text token => leaf .text { token with text := "" }
  | formula op operator left right =>
    formula op operator left.withoutLiterals right.withoutLiterals
  | assign operator target value => assign operator target value.withoutLiterals
  | defineAlias operator key shown => defineAlias operator key shown.withoutLiterals
  | print operator operand => print operator operand.withoutLiterals
  | printAlias operator operand => printAlias operator operand.withoutLiterals
  | node => node

/-- A statement or formula without its literals and its places. -/
def skeleton (node : Node) : Node := node.withoutLiterals.relocate .nowhere

/-- On kinds, a formula does not look at literals and places. -/
theorem IsFormula.infer_skeleton {node : Node} (h : node.IsFormula) (kinds : Kinds) :
    node.skeleton.infer kinds = (node.infer kinds).mapError Failure.skeleton := by
  induction h with
  | @leaf form token =>
    cases form with
    | word =>
      show (Node.leaf .word (token.relocate .nowhere)).infer kinds = _
      rw [infer, infer, Token.text_relocate]
      cases kinds token.text <;> rfl
    | _ => rfl
  | @formula op operator left right _ _ _ ihleft ihright =>
    show (Node.formula op (operator.relocate .nowhere) left.skeleton right.skeleton).infer kinds = _
    rw [infer, infer, ihleft, ihright]
    cases left.infer kinds with
    | error => rfl
    | ok a =>
      cases right.infer kinds with
      | error => rfl
      | ok b =>
        show (pure a >>= fun a => pure b >>= fun b => _) =
          Except.mapError _ (pure a >>= fun a => pure b >>= fun b => _)
        simp only [pure_bind]
        cases op.resultKind? a b with
        | some => rfl
        | none => cases op <;> rfl

/-- A result and a fault are changed independently. -/
theorem map_mapError {ε ε' α β : Type} (result : Except ε α) (f : α → β) (g : ε → ε') :
    (result.mapError g).map f = (result.map f).mapError g := by
  cases result <;> rfl

theorem exists_error_of_mapError {ε ε' α : Type} {result : Except ε α} {g : ε → ε'} {fault : ε'}
    (h : result.mapError g = .error fault) : ∃ original, result = .error original ∧ g original = fault := by
  cases result with
  | ok => cases h
  | error original => exact ⟨original, rfl, Except.error.inj h⟩

theorem ok_of_mapError {ε ε' α : Type} {result : Except ε α} {g : ε → ε'} {a : α}
    (h : result.mapError g = .ok a) : result = .ok a := by
  cases result with
  | ok => exact congrArg Except.ok (Except.ok.inj h)
  | error => cases h

theorem IsFormula.inferName_skeleton {node : Node} (h : node.IsFormula) (kinds : Kinds) :
    node.skeleton.inferName kinds = (node.inferName kinds).mapError Failure.skeleton := by
  have hinfer := h.infer_skeleton kinds
  cases h with
  | @leaf form token => cases form <;> rfl
  | formula =>
    refine (congrArg (Except.map fun _ => ()) hinfer).trans ?_
    exact map_mapError _ _ _

/-- On kinds, a statement does not look at literals and places. -/
theorem IsStatement.step_skeleton {statement : Node} (h : statement.IsStatement) (kinds : Kinds) :
    kinds.step statement.skeleton = (kinds.step statement).mapError Failure.skeleton := by
  cases h with
  | @assign name _ _ _ _ hvalue =>
    refine (congrArg (Except.map (kinds.define name.text)) (hvalue.infer_skeleton kinds)).trans ?_
    exact map_mapError _ _ _
  | @defineAlias keyword key shown form => cases form <;> rfl
  | print _ hoperand =>
    refine (congrArg (Except.map fun _ => kinds) (hoperand.infer_skeleton kinds)).trans ?_
    exact map_mapError _ _ _
  | printAlias _ hoperand =>
    refine (congrArg (Except.map fun _ => kinds) (hoperand.inferName_skeleton kinds)).trans ?_
    exact map_mapError _ _ _

theorem foldlM_step_skeleton {statements : List Node}
    (hstatements : ∀ statement ∈ statements, statement.IsStatement) (kinds : Kinds) :
    (statements.map skeleton).foldlM Kinds.step kinds =
      (statements.foldlM Kinds.step kinds).mapError Failure.skeleton := by
  induction statements generalizing kinds with
  | nil => rfl
  | cons statement rest ih =>
    obtain ⟨hstatement, hrest⟩ := List.forall_mem_cons.mp hstatements
    rw [List.map_cons, List.foldlM_cons, List.foldlM_cons, hstatement.step_skeleton]
    cases kinds.step statement with
    | error => rfl
    | ok reached => exact ih hrest reached

/-- Without literals and places, a run on kinds stops at the same statement with the same failure
but for its places. -/
theorem stopsOnKindsAt_skeleton_iff {statements : List Node}
    (hstatements : ∀ statement ∈ statements, statement.IsStatement) {kinds : Kinds} {index : Nat}
    {failure : Failure} :
    StopsOnKindsAt (statements.map skeleton) kinds index failure ↔
      ∃ original, StopsOnKindsAt statements kinds index original ∧
        original.skeleton = failure := by
  have hfold := foldlM_step_skeleton
    (fun s hs => hstatements s (List.mem_of_mem_take hs) : ∀ s ∈ statements.take index, _) kinds
  unfold StopsOnKindsAt
  rw [← List.map_take, hfold, List.getElem?_map]
  constructor
  · rintro ⟨_, reached, hget, hreached, hstep⟩
    obtain ⟨statement, hstatement, rfl⟩ := Option.map_eq_some_iff.mp hget
    have hread := hstatements statement (List.mem_of_getElem? hstatement)
    rw [hread.step_skeleton] at hstep
    obtain ⟨original, horiginal, rfl⟩ := exists_error_of_mapError hstep
    exact ⟨original, ⟨statement, reached, hstatement, ok_of_mapError hreached, horiginal⟩, rfl⟩
  · rintro ⟨original, ⟨statement, reached, hstatement, hreached, hstep⟩, rfl⟩
    have hread := hstatements statement (List.mem_of_getElem? hstatement)
    refine ⟨statement.skeleton, reached, ?_, ?_, ?_⟩
    · rw [hstatement]
      rfl
    · rw [hreached]
      rfl
    · rw [hread.step_skeleton, hstep]
      rfl

end Node

/-! ### Programs of a source -/

/-- **Kinds predict the run.** Take a program of a source and any machine.  For as long as its
statements succeed, the kinds of the scope are those that were inferred.  Unless a numeral, a
result that does not fit or the sink ends the run, it is ended by the statement that ends the run
on kinds, with the same fault at the same token, or by none where that is ended by none.  So such
a fault is the same, but for its place, for every machine with these kinds and for every program
that differs in literals and places only. -/
theorem kinds_predict_run {σ τ : Type} [Sink σ] [Sink τ] {source : String} {statements : List Node}
    (h : compile source = .ok (.program statements)) (machine : Machine σ) :
    (∀ index before, Node.Succeed (statements.take index) machine before →
      (statements.take index).foldlM Kinds.step machine.context.scope.kinds =
        .ok before.context.scope.kinds) ∧
    (¬ Node.BreaksOff statements machine →
      (∀ fault after, (Node.program statements).run.runOn machine = (.error fault, after) →
        ∃ index failure, failure.fault = fault ∧
          Node.StopsAt statements machine index failure) ∧
      (∀ index failure, Node.StopsAt statements machine index failure ↔
        Node.StopsOnKindsAt statements machine.context.scope.kinds index failure) ∧
      ∀ index failure,
        Node.StopsOnKindsAt statements machine.context.scope.kinds index failure →
          failure.fault.IsOfKinds) ∧
    ∀ source' others (machine' : Machine τ), compile source' = .ok (.program others) →
      others.map Node.skeleton = statements.map Node.skeleton →
      machine'.context.scope.kinds = machine.context.scope.kinds →
      ¬ Node.BreaksOff statements machine → ¬ Node.BreaksOff others machine' →
      ∀ index failure, Node.StopsAt statements machine index failure →
        ∃ failure', Node.StopsAt others machine' index failure' ∧
          failure'.skeleton = failure.skeleton := by
  have hread : ∀ {source statements}, compile source = .ok (.program statements) →
      ∀ statement ∈ statements, statement.IsStatement := by
    intro source statements hcompile
    obtain ⟨_, ⟨⟩, hstatements⟩ := exists_statements_of_compile hcompile
    exact fun statement hstatement => (hstatements statement hstatement).1
  have hstatements := hread h
  refine ⟨?_, ?_, ?_⟩
  · intro index before hsucceed
    exact hsucceed.foldlM_step fun s hs => hstatements s (List.mem_of_mem_take hs)
  · intro hrun
    refine ⟨?_, ?_, ?_⟩
    · exact fun fault after hfails => Node.exists_stopsAt hfails hstatements hrun
    · exact fun index failure => ⟨fun hstops => (hstops.stopsOnKindsAt hstatements hrun).1,
        fun hstops => hstops.stopsAt hstatements hrun⟩
    · exact fun index failure hstops =>
        ((hstops.stopsAt hstatements hrun).stopsOnKindsAt hstatements hrun).2
  · intro source' others machine' h' hskeleton hkinds hrun hrun' index failure hstops
    have hothers := hread h'
    -- the two runs on kinds are the same without their literals and places
    have hfirst : Node.StopsOnKindsAt (statements.map Node.skeleton) machine.context.scope.kinds
        index failure.skeleton :=
      (Node.stopsOnKindsAt_skeleton_iff hstatements).mpr
        ⟨failure, (hstops.stopsOnKindsAt hstatements hrun).1, rfl⟩
    rw [← hskeleton, ← hkinds] at hfirst
    obtain ⟨failure', hstops', hfailure⟩ := (Node.stopsOnKindsAt_skeleton_iff hothers).mp hfirst
    exact ⟨failure', hstops'.stopsAt hothers hrun', hfailure⟩

/-- The statement of `print n - x#;` for a numeral `n`. -/
def printLess (numeral : String) : Node :=
  .print ⟨.print, "print", ⟨0, 1⟩⟩ (.formula .sub ⟨.minus, "-", ⟨7 + numeral.utf8ByteSize, 1⟩⟩
    (.leaf .number ⟨.number, numeral, ⟨6, 1⟩⟩)
    (.leaf .word ⟨.word, "x", ⟨9 + numeral.utf8ByteSize, 1⟩⟩))

/-- A machine on which `x` has this text. -/
def holding (text : String) : Machine Buffer where
  context := { scope := Scope.empty.define "x" (.text text) }
  sink := {}

/-- A text is not taken from a number, whatever they are. -/
theorem not_breaksOff_printLess {numeral : String} {n : Int64}
    (h : Numeral.read? numeral = some n) (text : String) :
    ¬ Node.BreaksOff [printLess numeral] (holding text) := by
  rintro ⟨fault, after, hends, hvalues⟩
  have hstatement : (printLess numeral).IsStatement :=
    .print rfl (.formula rfl (.leaf (by decide) rfl) (.leaf (by decide) rfl))
  have hx : (holding text).context.scope.get? "x" = some (.text text) := by
    simp [holding, Scope.get?_define]
  have heffect : (printLess numeral).effect (holding text).context =
      .error (.type (.difference "-" .number .string 1)) := by
    simp only [printLess, Node.effect, Node.outcome, Leaf.outcome, hx, h]
    rfl
  have hfails : (printLess numeral).evaluate.runOn (holding text) =
      (.error (.type (.difference "-" .number .string 1)), holding text) := by
    rw [hstatement.runOn_evaluate, heffect]
  have hstops := (Node.Succeed.nil (holding text)).runOn_run_of_error hfails []
  obtain ⟨hfault, _⟩ := Prod.mk.inj (hstops.symm.trans hends)
  obtain rfl := Except.error.inj hfault
  exact hvalues

theorem kinds_predict_printLess :
    compile "print 1 - x#;" = .ok (.program [printLess "1"]) ∧
      compile "print 10 - x#;" = .ok (.program [printLess "10"]) ∧
      Node.StopsAt [printLess "1"] (holding "a") 0
        ⟨some ⟨.minus, "-", ⟨8, 1⟩⟩, .type (.difference "-" .number .string 1)⟩ ∧
      ∃ failure, Node.StopsAt [printLess "10"] (holding "b") 0 failure ∧
        failure.skeleton =
          ⟨some ⟨.minus, "-", ⟨0, 0⟩⟩, .type (.difference "-" .number .string 0)⟩ := by
  have hcollect : (Scanner.ofString "print 1 - x#;").collect =
      ([⟨.print, "print", ⟨0, 1⟩⟩, ⟨.number, "1", ⟨6, 1⟩⟩, ⟨.minus, "-", ⟨8, 1⟩⟩,
        ⟨.word, "x", ⟨10, 1⟩⟩, ⟨.hash, "#", ⟨11, 1⟩⟩, ⟨.semicolon, ";", ⟨12, 1⟩⟩], none) := by
    decide +kernel
  have hcollect' : (Scanner.ofString "print 10 - x#;").collect =
      ([⟨.print, "print", ⟨0, 1⟩⟩, ⟨.number, "10", ⟨6, 1⟩⟩, ⟨.minus, "-", ⟨9, 1⟩⟩,
        ⟨.word, "x", ⟨11, 1⟩⟩, ⟨.hash, "#", ⟨12, 1⟩⟩, ⟨.semicolon, ";", ⟨13, 1⟩⟩], none) := by
    decide +kernel
  have hcompile : compile "print 1 - x#;" = .ok (.program [printLess "1"]) := by
    rw [compile_of_tokenize (tokenize_of_collect hcollect)]
    rfl
  have hcompile' : compile "print 10 - x#;" = .ok (.program [printLess "10"]) := by
    rw [compile_of_tokenize (tokenize_of_collect hcollect')]
    rfl
  have hrun : ¬ Node.BreaksOff [printLess "1"] (holding "a") :=
    not_breaksOff_printLess (n := 1) (by decide +kernel) "a"
  have hrun' : ¬ Node.BreaksOff [printLess "10"] (holding "b") :=
    not_breaksOff_printLess (n := 10) (by decide +kernel) "b"
  have hkinds : (holding "b").context.scope.kinds = (holding "a").context.scope.kinds := by
    simp only [holding, Scope.kinds_define, Value.kind_text]
  obtain ⟨_, hpredict, hsame⟩ := kinds_predict_run (τ := Buffer) hcompile
    (holding "a")
  have hstops := ((hpredict hrun).2.1 0 _).mpr ⟨printLess "1", _, rfl, rfl, rfl⟩
  exact ⟨hcompile, hcompile', hstops,
    hsame _ _ (holding "b") hcompile' rfl hkinds hrun hrun' 0 _ hstops⟩

end EmojiScript
