import EmojiScript.Proofs.Evaluation.Exact
import EmojiScript.Proofs.Evaluation.Halting
import EmojiScript.Proofs.Evaluation.Statements

namespace EmojiScript

/-!
# What can stop a program

Trees that are made by hand may have a statement where a value is needed, or assign to something
that is no name.  Programs that were read from a source have neither, and their numerals are runs
of digits.  So there are four faults that a formula can raise, each at a node of its own and for a
reason that can be told from the scope; everything else that stops a run is the sink.

* `Arithmetic.apply_cases` — an operation has a result, does not fit or does not take its operands.
* `Node.Raises` — the faults of a formula, with their reasons.
* `Node.IsFormula.raises_of_outcome` — there are no others.
* `fault_cases_of_compile` — statements and programs of a source.
-/

/-! ### Operations -/

namespace Arithmetic

/-- The kind of the result of an operation on operands of these kinds, if it takes them. -/
def resultKind? : Arithmetic → Value.Kind → Value.Kind → Option Value.Kind
  | _, .number, .number => some .number
  | add, .string, .string => some .string
  | _, _, _ => none

/-- An operation has a result, or a result that does not fit, or does not take its operands. -/
theorem apply_cases (op : Arithmetic) (operator : Token) (a b : Value) :
    (∃ value, op.apply operator a b = .ok value ∧
      op.resultKind? a.kind b.kind = some value.kind) ∨
    (∃ m n, a = .int m ∧ b = .int n ∧ ¬ Numeral.Fits (op.exact m.toInt n.toInt) ∧
      op.apply operator a b = .error (.runtime (.overflow operator.text operator.line))) ∨
    op.resultKind? a.kind b.kind = none ∧
      op.apply operator a b = .error (op.mismatch operator a.kind b.kind) := by
  cases a with
  | int m =>
    cases b with
    | int n =>
      rcases op.apply_int_cases operator m n with ⟨word, happly, _⟩ | ⟨hfits, happly⟩
      · exact .inl ⟨.int word, happly, rfl⟩
      · exact .inr (.inl ⟨m, n, rfl, rfl, hfits, happly⟩)
    | text t => exact .inr (.inr ⟨by cases op <;> rfl, rfl⟩)
  | text s =>
    cases b with
    | int n => exact .inr (.inr ⟨by cases op <;> rfl, rfl⟩)
    | text t =>
      cases op with
      | add => exact .inl ⟨.text (s ++ t), rfl, rfl⟩
      | sub => exact .inr (.inr ⟨rfl, rfl⟩)

end Arithmetic

/-! ### Formulas -/

/-- The faults of a tree that has a node in a place where it does not belong. -/
def Fault.IsStructural : Fault → Prop
  | runtime (.valueless _) | runtime (.notAssignable _) => True
  | _ => False

namespace Node

/-- A formula of a source may stop with this fault in this scope. -/
inductive Raises (scope : Scope) (node : Node) : Fault → Prop where
  /-- A variable has no value. -/
  | undefinedVariable {name : Token} : leaf .word name ∈ node.steps →
      scope.get? name.text = none → Raises scope node (.undefinedVariable name.text)
  /-- A run of digits stands for too large a number. -/
  | invalidNumber {token : Token} : leaf .number token ∈ node.steps →
      Numeral.IsDigits token.text → 2 ^ 63 ≤ Numeral.value token.text →
      Raises scope node (.invalidNumber token.text)
  /-- An operation does not take the values of its operands. -/
  | type {op : Arithmetic} {operator : Token} {left right : Node} {a b : Value} :
      formula op operator left right ∈ node.steps → left.outcome scope = .ok a →
      right.outcome scope = .ok b → op.resultKind? a.kind b.kind = none →
      Raises scope node (op.mismatch operator a.kind b.kind)
  /-- The result of an operation does not fit 64 bits. -/
  | overflow {op : Arithmetic} {operator : Token} {left right : Node} {m n : Int64} :
      formula op operator left right ∈ node.steps → left.outcome scope = .ok (.int m) →
      right.outcome scope = .ok (.int n) → ¬ Numeral.Fits (op.exact m.toInt n.toInt) →
      Raises scope node (.runtime (.overflow operator.text operator.line))

variable {scope : Scope} {node : Node} {fault : Fault}

/-- A fault of a part is one of the whole. -/
theorem Raises.of_mem_steps {part : Node} (h : part.Raises scope fault)
    (hpart : part ∈ node.steps) : node.Raises scope fault := by
  cases h with
  | undefinedVariable hname hget => exact .undefinedVariable (mem_steps_trans hpart hname) hget
  | invalidNumber htoken hdigits hle =>
    exact .invalidNumber (mem_steps_trans hpart htoken) hdigits hle
  | type hmem hleft hright hkinds => exact .type (mem_steps_trans hpart hmem) hleft hright hkinds
  | overflow hmem hleft hright hfits =>
    exact .overflow (mem_steps_trans hpart hmem) hleft hright hfits

/-- Formulas have no node in a wrong place. -/
theorem Raises.not_isStructural (h : node.Raises scope fault) : ¬ fault.IsStructural := by
  cases h with
  | @type op => cases op <;> exact id
  | _ => exact id

/-- A numeral is refused for its size alone. -/
theorem Raises.of_invalidNumber {text : String} (h : node.Raises scope (.invalidNumber text)) :
    Numeral.IsDigits text ∧ 2 ^ 63 ≤ Numeral.value text := by
  generalize hfault : Fault.invalidNumber text = fault at h
  cases h with
  | invalidNumber _ hdigits hle =>
    obtain rfl := Fault.invalidNumber.inj hfault
    exact ⟨hdigits, hle⟩
  | @type op => cases op <;> cases hfault
  | _ => cases hfault

/-- The fault of a leaf. -/
theorem raises_of_leaf_outcome {form : Leaf} {token : Token} (hdigits : (leaf form token).HasDigits)
    (h : form.outcome scope token = .error fault) : (leaf form token).Raises scope fault := by
  have hself := (leaf form token).self_mem_steps
  cases form with
  | number =>
    have hrun := hdigits token hself
    simp only [Leaf.outcome, Numeral.read?_of_isDigits hrun] at h
    by_cases hlt : Numeral.value token.text < 2 ^ 63
    · obtain ⟨word, hofInt, _⟩ := Numeral.exists_ofInt?_of_fits (n := Numeral.value token.text)
        ⟨by omega, by omega⟩
      rw [hofInt] at h
      cases h
    · have hnone : Numeral.ofInt? (Numeral.value token.text) = none :=
        Numeral.ofInt?_of_not_fits fun hfits => hlt (by have := hfits.2; omega)
      rw [hnone] at h
      obtain rfl := Except.error.inj h
      exact .invalidNumber hself hrun (Nat.le_of_not_lt hlt)
  | text | emoji => cases h
  | word =>
    simp only [Leaf.outcome] at h
    cases hget : scope.get? token.text with
    | some value =>
      rw [hget] at h
      cases h
    | none =>
      rw [hget] at h
      obtain rfl := Except.error.inj h
      exact .undefinedVariable hself hget

/-- **Faults of formulas.** A formula that fails does so for one of four reasons. -/
theorem IsFormula.raises_of_outcome (h : node.IsFormula) (hdigits : node.HasDigits)
    (houtcome : node.outcome scope = .error fault) : node.Raises scope fault := by
  induction h with
  | leaf => exact raises_of_leaf_outcome hdigits houtcome
  | @formula op operator left right _ _ _ ihleft ihright =>
    have hleft := left_mem_steps op operator left right
    have hright := right_mem_steps op operator left right
    rw [outcome] at houtcome
    -- the first of the two operands and the operation that fails has the fault
    cases ha : left.outcome scope with
    | error first =>
      rw [ha] at houtcome
      obtain rfl := Except.error.inj houtcome
      exact (ihleft (hdigits.of_mem_steps hleft) ha).of_mem_steps hleft
    | ok a =>
      cases hb : right.outcome scope with
      | error second =>
        rw [ha, hb] at houtcome
        obtain rfl := Except.error.inj houtcome
        exact (ihright (hdigits.of_mem_steps hright) hb).of_mem_steps hright
      | ok b =>
        have happly : op.apply operator a b = .error fault := by
          rw [ha, hb] at houtcome
          exact houtcome
        have hself := (Node.formula op operator left right).self_mem_steps
        rcases op.apply_cases operator a b with
          ⟨value, hok, _⟩ | ⟨m, n, rfl, rfl, hfits, herror⟩ | ⟨hkinds, herror⟩
        · rw [hok] at happly
          cases happly
        · obtain rfl := Except.error.inj (herror.symm.trans happly)
          exact .overflow hself ha hb hfits
        · obtain rfl := Except.error.inj (herror.symm.trans happly)
          exact .type hself ha hb hkinds

end Node

/-! ### Statements and programs of a source -/

/-- The fault of a statement on a scope is the sink's, or it is raised by the formula of the
statement.  In either case no node stands in a wrong place, and a numeral is refused for its size
alone. -/
structure Fault.ArisesIn (fault : Fault) (statement : Node) (scope : Scope) : Prop where
  cause : (∃ reason, fault = .sink reason) ∨
    ∃ formula, statement.formula? = some formula ∧ formula.Raises scope fault
  not_isStructural : ¬ fault.IsStructural
  large : ∀ text, fault = .invalidNumber text →
    Numeral.IsDigits text ∧ 2 ^ 63 ≤ Numeral.value text

theorem Fault.arisesIn_sink (reason : String) (statement : Node) (scope : Scope) :
    (Fault.sink reason).ArisesIn statement scope where
  cause := .inl ⟨reason, rfl⟩
  not_isStructural := id
  large _ h := nomatch h

theorem Node.Raises.arisesIn {statement formula : Node} {scope : Scope} {fault : Fault}
    (h : formula.Raises scope fault) (hformula : statement.formula? = some formula) :
    fault.ArisesIn statement scope where
  cause := .inr ⟨formula, hformula, h⟩
  not_isStructural := h.not_isStructural
  large := by
    rintro text rfl
    exact h.of_invalidNumber

variable {σ : Type} [Sink σ]

/-- A statement whose numerals are runs of digits fails for one of five reasons. -/
theorem Node.IsStatement.arisesIn_of_evaluate {statement : Node} (h : statement.IsStatement)
    (hdigits : ∀ formula, statement.formula? = some formula → formula.HasDigits)
    {machine after : Machine σ} {fault : Fault}
    (hrun : statement.evaluate.runOn machine = (.error fault, after)) :
    fault.ArisesIn statement machine.context.scope := by
  rcases h.evaluate_cases machine with
    ⟨first, heffect, hfails⟩ | ⟨effect, left, _, _, hok | ⟨reason, hrefused⟩⟩
  · obtain ⟨rfl, _⟩ : first = fault ∧ machine = after := by simpa [hfails] using hrun
    obtain ⟨formula, hformula, houtcome⟩ := h.exists_formula_of_effect_error heffect
    exact ((h.isFormula hformula).raises_of_outcome (hdigits formula hformula) houtcome).arisesIn
      hformula
  · rw [hok] at hrun
    cases hrun
  · obtain ⟨rfl, _⟩ : Fault.sink reason = fault ∧ left = after := by simpa [hrefused] using hrun
    exact Fault.arisesIn_sink reason _ _

/-- The statements of a source are statements, and their numerals are runs of digits. -/
theorem exists_statements_of_compile {source : String} {program : Node}
    (h : compile source = .ok program) :
    ∃ statements, program = .program statements ∧ ∀ statement ∈ statements,
      statement.IsStatement ∧
      ∀ formula, statement.formula? = some formula → formula.HasDigits := by
  obtain ⟨tokens, _, hparse⟩ := compile_eq_ok_iff.mp h
  obtain ⟨statements, rfl, hstatements⟩ := exists_statements_of_parse hparse
  refine ⟨statements, rfl, ?_⟩
  intro statement hstatement
  refine ⟨hstatements statement hstatement, ?_⟩
  intro formula hformula
  exact hasDigits_of_compile h hstatement hformula
    ((hstatements statement hstatement).isFormula hformula)

/-- **Faults of a source.** A statement of a source, on any machine, stops with no fault but that
of the sink and those that its formula raises; and the run of the program stops with the fault of
one of its statements, on the machine that the ones before it leave, or with that of the sink.  So
no statement ever stands for a value, nothing but a name is assigned to, and a numeral is refused
only for being too large. -/
theorem fault_cases_of_compile {source : String} {program : Node}
    (h : compile source = .ok program) :
    ∃ statements, program = .program statements ∧
      (∀ statement ∈ statements, ∀ (machine after : Machine σ) fault,
        statement.evaluate.runOn machine = (.error fault, after) →
          fault.ArisesIn statement machine.context.scope) ∧
      ∀ (machine after : Machine σ) fault, program.run.runOn machine = (.error fault, after) →
        (∃ reason, fault = .sink reason) ∨
        ∃ earlier statement later before, statements = earlier ++ statement :: later ∧
          Node.Succeed earlier machine before ∧
          statement.evaluate.runOn before = (.error fault, after) ∧
          fault.ArisesIn statement before.context.scope := by
  obtain ⟨statements, rfl, hstatements⟩ := exists_statements_of_compile h
  refine ⟨statements, rfl, ?_, ?_⟩
  · intro statement hstatement machine after fault hrun
    obtain ⟨hread, hdigits⟩ := hstatements statement hstatement
    exact hread.arisesIn_of_evaluate hdigits hrun
  · intro machine after fault hrun
    rcases Node.evaluateAll_cases statements machine with
      ⟨done, hdone⟩ | ⟨earlier, statement, later, before, first, left, rfl, hearlier, hfails⟩
    · -- all statements succeed, and the sink refuses the flush
      rw [hdone.runOn_run] at hrun
      cases hflush : (Sink.flush done.sink).1 with
      | ok =>
        rw [hflush] at hrun
        cases hrun
      | error reason =>
        rw [hflush] at hrun
        obtain ⟨hfault, _⟩ := Prod.mk.inj hrun
        exact .inl ⟨reason, (Except.error.inj hfault).symm⟩
    · rw [hearlier.runOn_run_of_error hfails] at hrun
      obtain ⟨hfault, rfl⟩ := Prod.mk.inj hrun
      obtain rfl := Except.error.inj hfault
      obtain ⟨hread, hdigits⟩ := hstatements statement (by simp)
      exact .inr ⟨earlier, statement, later, before, rfl, hearlier, hfails,
        hread.arisesIn_of_evaluate hdigits hfails⟩

/-- The statement of `print 9223372036854775808#;`, whose numeral is one too large. -/
def printTooLarge : Node :=
  .print ⟨.print, "print", ⟨0, 1⟩⟩ (.leaf .number ⟨.number, "9223372036854775808", ⟨6, 1⟩⟩)

theorem printTooLarge_fault :
    compile "print 9223372036854775808#;" = .ok (.program [printTooLarge]) ∧
      printTooLarge.evaluate.runOn ({ sink := {} } : Machine Buffer) =
        (.error (.invalidNumber "9223372036854775808"), { sink := {} }) ∧
      (Fault.invalidNumber "9223372036854775808").ArisesIn printTooLarge .empty := by
  have hcollect : (Scanner.ofString "print 9223372036854775808#;").collect =
      ([⟨.print, "print", ⟨0, 1⟩⟩, ⟨.number, "9223372036854775808", ⟨6, 1⟩⟩,
        ⟨.hash, "#", ⟨25, 1⟩⟩, ⟨.semicolon, ";", ⟨26, 1⟩⟩], none) := by decide +kernel
  have hcompile : compile "print 9223372036854775808#;" = .ok (.program [printTooLarge]) := by
    rw [compile_of_tokenize (tokenize_of_collect hcollect)]
    rfl
  have hread : Numeral.read? "9223372036854775808" = none := by decide +kernel
  have hrun : printTooLarge.evaluate.runOn ({ sink := {} } : Machine Buffer) =
      (.error (.invalidNumber "9223372036854775808"), { sink := {} }) := by
    have hstatement : printTooLarge.IsStatement := .print rfl (.leaf (by decide) rfl)
    have heffect : printTooLarge.effect {} = .error (.invalidNumber "9223372036854775808") := by
      simp only [printTooLarge, Node.effect, Node.outcome, Leaf.outcome, hread]
      rfl
    rw [hstatement.runOn_evaluate, heffect]
  obtain ⟨statements, hprogram, hfaults, _⟩ := fault_cases_of_compile (σ := Buffer) hcompile
  obtain rfl := Node.program.inj hprogram
  refine ⟨hcompile, hrun, ?_⟩
  exact hfaults printTooLarge (List.mem_singleton_self _) { sink := {} } _ _ hrun

end EmojiScript
