import EmojiScript.Proofs.Evaluation.Formulas
import EmojiScript.Proofs.Source
import Mathlib.Algebra.Group.Int.Defs
import Mathlib.Algebra.Group.Nat.Defs

namespace EmojiScript

/-!
# Formulas on integers are exact

A formula whose leaves are numerals and variables with integers has an exact value in the unbounded
integers, and so has every operation within it.  Evaluation finds this value, or stops at the first
node, in the order in which nodes are evaluated, whose exact value does not fit 64 bits.  So no
operation ever works on a value that has wrapped.  A text among the leaves leads to a text or to a
fault, never to an integer.

* `Node.exact` — the exact value of a formula.
* `Node.steps` — the nodes of a formula in the order in which they are evaluated.
* `Node.misfit?` — the fault of a node whose own exact value does not fit.
* `Node.OnIntegers.outcome_cases` — a formula on integers is exact or has its first fault.
* `evaluate_exact` — formulas of a source.
-/

/-! ### Numerals and operations -/

namespace Numeral

/-- The number that a run of decimal digits stands for. -/
def value (digits : String) : Nat := Nat.ofDigitChars 10 digits.toList 0

/-- An integer fits 64 bits. -/
def Fits (n : Int) : Prop := -2 ^ 63 ≤ n ∧ n ≤ 2 ^ 63 - 1

instance (n : Int) : Decidable (Fits n) := inferInstanceAs (Decidable (_ ∧ _))

/-- A text is a run of decimal digits. -/
def IsDigits (text : String) : Prop := text ≠ "" ∧ text.toList.all Char.isDigit = true

theorem fits_iff {n : Int} : Fits n ↔ Int64.minValue.toInt ≤ n ∧ n ≤ Int64.maxValue.toInt := by
  rw [Int64.toInt_minValue, Int64.toInt_maxValue]
  exact Iff.rfl

/-- Every word fits. -/
theorem fits_toInt (word : Int64) : Fits word.toInt :=
  fits_iff.mpr ⟨word.minValue_le_toInt, toInt_le_maxValue word⟩

theorem exists_ofInt?_of_fits {n : Int} (h : Fits n) :
    ∃ word, ofInt? n = some word ∧ word.toInt = n := by
  have hofInt : ofInt? n = some (Int64.ofInt n) := if_pos (fits_iff.mp h)
  exact ⟨_, hofInt, ofInt?_eq_some_iff.mp hofInt⟩

theorem ofInt?_of_not_fits {n : Int} (h : ¬ Fits n) : ofInt? n = none :=
  if_neg fun range => h (fits_iff.mpr range)

theorem digits?_of_isDigits {text : String} (h : IsDigits text) :
    digits? text.toList = some (value text) := by
  have hnil : text.toList ≠ [] := by simpa using h.1
  exact if_pos ⟨hnil, h.2⟩

/-- A run of digits has no sign. -/
theorem signed?_of_isDigits {text : String} (h : IsDigits text) :
    signed? text.toList = some (value text : Int) := by
  have hall := h.2
  unfold signed?
  split
  next heq =>
    rw [heq] at hall
    simp at hall
  next heq =>
    rw [heq] at hall
    simp at hall
  next =>
    rw [digits?_of_isDigits h]
    rfl

/-- A run of digits is read where its number fits. -/
theorem read?_of_isDigits {text : String} (h : IsDigits text) : read? text = ofInt? (value text) := by
  rw [read?, signed?_of_isDigits h, Option.bind_some]

/-- What is written for a natural number is a run of digits. -/
theorem isDigits_repr (n : Nat) : IsDigits n.repr := by
  have hne : n.repr ≠ "" := by
    rw [ne_eq, ← String.toList_eq_nil_iff, Nat.toList_repr]
    exact Nat.toDigits_ne_nil
  refine ⟨hne, List.all_eq_true.mpr ?_⟩
  intro c hc
  rw [Nat.toList_repr] at hc
  exact Nat.isDigit_of_mem_toDigits (by decide) (by decide) hc

/-- What is written for a natural number stands for it. -/
theorem value_repr (n : Nat) : value n.repr = n := by
  rw [value, Nat.toList_repr]
  exact Nat.ofDigitChars_toDigits (by decide) (by decide)

end Numeral

/-- The operation on unbounded integers. -/
def Arithmetic.exact : Arithmetic → Int → Int → Int
  | add, a, b => a + b
  | sub, a, b => a - b

theorem Arithmetic.words?_eq_ofInt?_exact (op : Arithmetic) (a b : Int64) :
    op.words? a b = Numeral.ofInt? (op.exact a.toInt b.toInt) := by
  cases op <;> rfl

/-- The operation on two integers is exact, or its exact result does not fit. -/
theorem Arithmetic.apply_int_cases (op : Arithmetic) (operator : Token) (a b : Int64) :
    (∃ n, op.apply operator (.int a) (.int b) = .ok (.int n) ∧ n.toInt = op.exact a.toInt b.toInt) ∨
    ¬ Numeral.Fits (op.exact a.toInt b.toInt) ∧
      op.apply operator (.int a) (.int b) =
        .error (.runtime (.overflow operator.text operator.line)) := by
  have hwords := op.words?_eq_ofInt?_exact a b
  by_cases hfits : Numeral.Fits (op.exact a.toInt b.toInt)
  · obtain ⟨n, hofInt, hn⟩ := Numeral.exists_ofInt?_of_fits hfits
    refine .inl ⟨n, ?_, hn⟩
    simp only [apply, hwords, hofInt]
  · refine .inr ⟨hfits, ?_⟩
    simp only [apply, hwords, Numeral.ofInt?_of_not_fits hfits]

namespace Node

/-! ### Exact values -/

/-- The exact value of a formula whose leaves are numerals and variables with integers; anything
else counts as zero. -/
def exact (scope : Scope) : Node → Int
  | leaf .number token => Numeral.value token.text
  | leaf .word name =>
    match scope.get? name.text with
    | some (.int n) => n.toInt
    | _ => 0
  | formula op _ left right => op.exact (left.exact scope) (right.exact scope)
  | _ => 0

/-- The nodes of a formula in the order in which their values are found: the operands of an
operation from left to right, and then the operation. -/
def steps : Node → List Node
  | formula op operator left right => left.steps ++ (right.steps ++ [formula op operator left right])
  | node => [node]

theorem steps_leaf (form : Leaf) (token : Token) :
    (leaf form token).steps = [leaf form token] := rfl

/-- The fault of a node whose own exact value does not fit 64 bits. -/
def misfit? (scope : Scope) (node : Node) : Option Fault :=
  match node with
  | leaf .number token =>
    if Numeral.value token.text < 2 ^ 63 then none else some (.invalidNumber token.text)
  | formula _ operator _ _ =>
    if Numeral.Fits (node.exact scope) then none
    else some (.runtime (.overflow operator.text operator.line))
  | _ => none

/-- The variables of a formula have integers. -/
def BindsIntegers (scope : Scope) (formula : Node) : Prop :=
  ∀ name, leaf .word name ∈ formula.steps → ∃ n, scope.get? name.text = some (.int n)

/-- The numerals of a formula are runs of digits, as they are in every source. -/
def HasDigits (formula : Node) : Prop :=
  ∀ token, leaf .number token ∈ formula.steps → Numeral.IsDigits token.text

/-- No leaf of a formula is a text. -/
def TextFree (formula : Node) : Prop := ∀ token, leaf .text token ∉ formula.steps

/-- A formula whose leaves are runs of digits and variables with integers. -/
inductive OnIntegers (scope : Scope) : Node → Prop where
  | number {token : Token} : Numeral.IsDigits token.text → OnIntegers scope (leaf .number token)
  | word {name : Token} {n : Int64} : scope.get? name.text = some (.int n) →
      OnIntegers scope (leaf .word name)
  | formula {op : Arithmetic} {operator : Token} {left right : Node} : OnIntegers scope left →
      OnIntegers scope right → OnIntegers scope (formula op operator left right)

variable {scope : Scope}

/-- The faults of a formula's nodes are those of its operands and its own. -/
theorem findSome?_misfit?_formula (op : Arithmetic) (operator : Token) (left right : Node) :
    (formula op operator left right).steps.findSome? (misfit? scope) =
      ((left.steps.findSome? (misfit? scope)).or (right.steps.findSome? (misfit? scope))).or
        ((formula op operator left right).misfit? scope) := by
  simp [steps, List.findSome?_append, Option.or_assoc]

/-- An operation on integers gives its exact value where it fits, and its fault otherwise. -/
theorem apply_int (op : Arithmetic) (operator : Token) {left right : Node} {a b : Int64}
    (ha : a.toInt = left.exact scope) (hb : b.toInt = right.exact scope) :
    (∃ n, op.apply operator (.int a) (.int b) = .ok (.int n) ∧
      n.toInt = (formula op operator left right).exact scope ∧
      (formula op operator left right).misfit? scope = none) ∨
    ∃ fault, op.apply operator (.int a) (.int b) = .error fault ∧
      (formula op operator left right).misfit? scope = some fault := by
  have hexact : op.exact a.toInt b.toInt = (formula op operator left right).exact scope := by
    rw [ha, hb]
    rfl
  rcases op.apply_int_cases operator a b with ⟨n, happly, hn⟩ | ⟨hfits, happly⟩
  · rw [hexact] at hn
    exact .inl ⟨n, happly, hn, if_pos (hn ▸ Numeral.fits_toInt n)⟩
  · rw [hexact] at hfits
    exact .inr ⟨_, happly, if_neg hfits⟩

/-- **Exactness.** A formula on integers has its exact value if all its nodes fit, and otherwise
the fault of the first that does not. -/
theorem OnIntegers.outcome_cases {node : Node} (h : node.OnIntegers scope) :
    (∃ n, node.outcome scope = .ok (.int n) ∧ n.toInt = node.exact scope ∧
      node.steps.findSome? (misfit? scope) = none) ∨
    ∃ fault, node.outcome scope = .error fault ∧
      node.steps.findSome? (misfit? scope) = some fault := by
  induction h with
  | @number token hdigits =>
    by_cases hlt : Numeral.value token.text < 2 ^ 63
    · obtain ⟨n, hofInt, hn⟩ := Numeral.exists_ofInt?_of_fits (n := Numeral.value token.text)
        ⟨by omega, by omega⟩
      refine .inl ⟨n, ?_, hn, ?_⟩
      · simp only [outcome, Leaf.outcome, Numeral.read?_of_isDigits hdigits, hofInt]
      · rw [steps_leaf, List.findSome?_singleton]
        exact if_pos hlt
    · have hofInt : Numeral.ofInt? (Numeral.value token.text) = none :=
        Numeral.ofInt?_of_not_fits fun hfits => hlt (by have := hfits.2; omega)
      refine .inr ⟨.invalidNumber token.text, ?_, ?_⟩
      · simp only [outcome, Leaf.outcome, Numeral.read?_of_isDigits hdigits, hofInt]
      · rw [steps_leaf, List.findSome?_singleton]
        exact if_neg hlt
  | @word name n hget =>
    refine .inl ⟨n, ?_, ?_, rfl⟩
    · simp only [outcome, Leaf.outcome, hget]
    · simp only [exact, hget]
  | @formula op operator left right _ _ ihleft ihright =>
    rw [findSome?_misfit?_formula]
    rcases ihleft with ⟨a, houtcome, ha, hnone⟩ | ⟨fault, houtcome, hsome⟩
    · rcases ihright with ⟨b, houtcome', hb, hnone'⟩ | ⟨fault, houtcome', hsome⟩
      · -- both operands are exact, so the operation works on their exact values
        rw [hnone, hnone', outcome, houtcome, houtcome']
        exact apply_int op operator ha hb
      · refine .inr ⟨fault, ?_, ?_⟩
        · rw [outcome, houtcome, houtcome']
          rfl
        · rw [hnone, hsome]
          rfl
    · refine .inr ⟨fault, ?_, ?_⟩
      · rw [outcome, houtcome]
        rfl
      · rw [hsome]
        rfl

/-- All nodes of a formula fit where its numerals and its operations do. -/
theorem findSome?_misfit?_eq_none_iff {node : Node} :
    node.steps.findSome? (misfit? scope) = none ↔
      (∀ token, leaf .number token ∈ node.steps → Numeral.value token.text < 2 ^ 63) ∧
      ∀ op operator left right, formula op operator left right ∈ node.steps →
        Numeral.Fits ((formula op operator left right).exact scope) := by
  rw [List.findSome?_eq_none_iff]
  constructor
  · intro h
    refine ⟨?_, ?_⟩
    · intro token htoken
      simpa [misfit?] using h _ htoken
    · intro op operator left right hmem
      simpa [misfit?] using h _ hmem
  · rintro ⟨hnumbers, hoperations⟩ step hstep
    match step, hstep with
    | leaf .number token, hstep => exact if_pos (hnumbers token hstep)
    | formula op operator left right, hstep =>
      exact if_pos (hoperations op operator left right hstep)
    | leaf .text _, _ | leaf .emoji _, _ | leaf .word _, _ => rfl
    | assign .., _ | defineAlias .., _ | print .., _ | printAlias .., _ | program _, _ => rfl

/-! ### Texts among the leaves -/

/-- Only integers make an integer. -/
theorem apply_eq_int {op : Arithmetic} {operator : Token} {a b : Value} {n : Int64}
    (h : op.apply operator a b = .ok (.int n)) : (∃ m, a = .int m) ∧ ∃ m, b = .int m := by
  cases a with
  | int m =>
    cases b with
    | int m' => exact ⟨⟨m, rfl⟩, m', rfl⟩
    | text => cases h
  | text =>
    cases b with
    | int => cases h
    | text => cases op <;> cases h

/-- A formula with a text among its leaves is no integer. -/
theorem outcome_ne_int {node : Node} {token : Token} (h : leaf .text token ∈ node.steps) (n : Int64) :
    node.outcome scope ≠ .ok (.int n) := by
  induction node generalizing n with
  | leaf form other =>
    obtain ⟨rfl, rfl⟩ : Leaf.text = form ∧ token = other := by simpa [steps] using h
    rintro ⟨⟩
  | formula op operator left right ihleft ihright =>
    intro houtcome
    rw [outcome] at houtcome
    cases hleft : left.outcome scope with
    | error => simp [hleft, bind, Except.bind] at houtcome
    | ok a =>
      cases hright : right.outcome scope with
      | error => simp [hleft, hright, bind, Except.bind] at houtcome
      | ok b =>
        rw [hleft, hright] at houtcome
        -- both operands would have to be integers, and one of them holds the text
        obtain ⟨⟨m, rfl⟩, m', rfl⟩ := apply_eq_int houtcome
        have hmem : leaf .text token ∈ left.steps ∨ leaf .text token ∈ right.steps := by
          simpa [steps] using h
        rcases hmem with hmem | hmem
        · exact ihleft hmem m hleft
        · exact ihright hmem m' hright
  | _ => simp [steps] at h

/-! ### Parts of a formula -/

theorem self_mem_steps (node : Node) : node ∈ node.steps := by
  cases node <;> simp [steps]

theorem mem_steps_trans {node part step : Node} (h : part ∈ node.steps) (hstep : step ∈ part.steps) :
    step ∈ node.steps := by
  induction node with
  | formula op operator left right ihleft ihright =>
    simp only [steps, List.mem_append, List.mem_singleton] at h
    rcases h with h | h | rfl
    · exact List.mem_append_left _ (ihleft h)
    · exact List.mem_append_right _ (List.mem_append_left _ (ihright h))
    · exact hstep
  | _ =>
    simp only [steps, List.mem_singleton] at h
    exact h ▸ hstep

theorem left_mem_steps (op : Arithmetic) (operator : Token) (left right : Node) :
    left ∈ (formula op operator left right).steps :=
  List.mem_append_left _ left.self_mem_steps

theorem right_mem_steps (op : Arithmetic) (operator : Token) (left right : Node) :
    right ∈ (formula op operator left right).steps :=
  List.mem_append_right _ (List.mem_append_left _ right.self_mem_steps)

/-- The numerals of a part are numerals of the whole. -/
theorem HasDigits.of_mem_steps {node part : Node} (h : node.HasDigits) (hpart : part ∈ node.steps) :
    part.HasDigits :=
  fun token htoken => h token (mem_steps_trans hpart htoken)

/-- The variables of a part are variables of the whole. -/
theorem BindsIntegers.of_mem_steps {node part : Node} (h : node.BindsIntegers scope)
    (hpart : part ∈ node.steps) : part.BindsIntegers scope :=
  fun name hname => h name (mem_steps_trans hpart hname)

/-- The leaves of a part are leaves of the whole. -/
theorem TextFree.of_mem_steps {node part : Node} (h : node.TextFree) (hpart : part ∈ node.steps) :
    part.TextFree :=
  fun token htoken => h token (mem_steps_trans hpart htoken)

theorem IsFormula.of_mem_steps {node part : Node} (h : node.IsFormula) (hpart : part ∈ node.steps) :
    part.IsFormula := by
  induction h with
  | leaf hform hkind =>
    obtain rfl := List.mem_singleton.mp hpart
    exact .leaf hform hkind
  | formula hoperator hleft hright ihleft ihright =>
    simp only [steps, List.mem_append, List.mem_singleton] at hpart
    rcases hpart with hpart | hpart | rfl
    · exact ihleft hpart
    · exact ihright hpart
    · exact .formula hoperator hleft hright

theorem token_mem_inOrder {node : Node} {form : Leaf} {token : Token}
    (h : leaf form token ∈ node.steps) : token ∈ node.inOrder := by
  induction node with
  | leaf form' other =>
    obtain ⟨_, rfl⟩ : form = form' ∧ token = other := by simpa [steps] using h
    exact List.mem_singleton_self _
  | formula op operator left right ihleft ihright =>
    have hmem : leaf form token ∈ left.steps ∨ leaf form token ∈ right.steps := by
      simpa [steps] using h
    rcases hmem with hmem | hmem
    · exact List.mem_append_left _ (ihleft hmem)
    · exact List.mem_append_right _ (List.mem_cons_of_mem _ (ihright hmem))
  | _ => simp [steps] at h

/-- A text-free formula is one on integers. -/
theorem IsFormula.onIntegers {node : Node} (h : node.IsFormula) (hdigits : node.HasDigits)
    (hbinds : node.BindsIntegers scope) (htext : node.TextFree) : node.OnIntegers scope := by
  induction h with
  | @leaf form token hform hkind =>
    have hself := (Node.leaf form token).self_mem_steps
    cases form with
    | number => exact .number (hdigits token hself)
    | text => exact absurd hself (htext token)
    | emoji => exact absurd rfl hform
    | word =>
      obtain ⟨n, hn⟩ := hbinds token hself
      exact .word hn
  | @formula op operator left right _ _ _ ihleft ihright =>
    have hleft := left_mem_steps op operator left right
    have hright := right_mem_steps op operator left right
    exact .formula
      (ihleft (hdigits.of_mem_steps hleft) (hbinds.of_mem_steps hleft) (htext.of_mem_steps hleft))
      (ihright (hdigits.of_mem_steps hright) (hbinds.of_mem_steps hright)
        (htext.of_mem_steps hright))

/-- An integer that comes out of a formula is its exact value, and all its nodes fit. -/
theorem IsFormula.of_outcome_int {node : Node} {n : Int64} (h : node.IsFormula)
    (hdigits : node.HasDigits) (hbinds : node.BindsIntegers scope)
    (houtcome : node.outcome scope = .ok (.int n)) :
    node.TextFree ∧ n.toInt = node.exact scope ∧ node.steps.findSome? (misfit? scope) = none := by
  have htext : node.TextFree := fun token htoken => outcome_ne_int htoken n houtcome
  rcases (h.onIntegers hdigits hbinds htext).outcome_cases with
    ⟨m, hm, hexact, hnone⟩ | ⟨fault, hfault, _⟩
  · rw [houtcome] at hm
    cases hm
    exact ⟨htext, hexact, hnone⟩
  · rw [houtcome] at hfault
    cases hfault

/-- A formula comes to an integer exactly if no leaf is a text and all its nodes fit. -/
theorem IsFormula.exists_outcome_int_iff {node : Node} (h : node.IsFormula)
    (hdigits : node.HasDigits) (hbinds : node.BindsIntegers scope) :
    (∃ n, node.outcome scope = .ok (.int n)) ↔
      node.TextFree ∧ node.steps.findSome? (misfit? scope) = none := by
  constructor
  · rintro ⟨n, houtcome⟩
    obtain ⟨htext, _, hnone⟩ := h.of_outcome_int hdigits hbinds houtcome
    exact ⟨htext, hnone⟩
  · rintro ⟨htext, hnone⟩
    rcases (h.onIntegers hdigits hbinds htext).outcome_cases with
      ⟨n, houtcome, _, _⟩ | ⟨fault, _, hsome⟩
    · exact ⟨n, houtcome⟩
    · rw [hnone] at hsome
      cases hsome

end Node

/-! ### Formulas of a source -/

theorem Node.mem_inOrder_of_formula? {statement formula : Node} {token : Token}
    (hformula : statement.formula? = some formula) (h : token ∈ formula.inOrder) :
    token ∈ statement.inOrder := by
  cases statement with
  | assign =>
    obtain rfl := Option.some.inj hformula
    exact List.mem_append_right _ (List.mem_cons_of_mem _ h)
  | print | printAlias =>
    obtain rfl := Option.some.inj hformula
    exact List.mem_cons_of_mem _ h
  | _ => cases hformula

theorem Node.mem_inOrderAll {statements : List Node} {statement : Node} {token : Token}
    (hstatement : statement ∈ statements) (h : token ∈ statement.inOrder) :
    token ∈ inOrderAll statements := by
  induction statements with
  | nil => cases hstatement
  | cons first rest ih =>
    rcases List.mem_cons.mp hstatement with rfl | hrest
    · exact List.mem_append_left _ h
    · exact List.mem_append_right _ (ih hrest)

/-- The numerals of a source are runs of digits. -/
theorem hasDigits_of_compile {source : String} {statements : List Node} {statement formula : Node}
    (hcompile : compile source = .ok (.program statements)) (hstatement : statement ∈ statements)
    (hformula : statement.formula? = some formula) (h : formula.IsFormula) :
    formula.HasDigits := by
  intro token hleaf
  have hkind : token.kind = .number := by
    cases h.of_mem_steps hleaf with
    | leaf _ hkind => exact hkind
  have hmem := Node.mem_inOrderAll hstatement
    (Node.mem_inOrder_of_formula? hformula (Node.token_mem_inOrder hleaf))
  obtain ⟨hne, rest, hlexeme⟩ := exists_lexeme_of_compile hcompile token hmem
  rw [hkind] at hlexeme
  refine ⟨hne, ?_⟩
  rw [hlexeme]
  exact List.all_takeWhile

/-- **Exact integers.** Take a formula of a source, and a machine on which its variables have
integers.  It evaluates to an integer exactly if no leaf is a text, every numeral is below `2 ^ 63`
and the exact value of every operation fits 64 bits; this integer is its exact value, and no part
of it comes to any integer but its exact value.  A text-free formula that does not evaluate to an
integer stops with the fault of the first node, in the order of evaluation, that does not fit. -/
theorem evaluate_exact {σ : Type} [Sink σ] {source : String} {statements : List Node}
    {statement formula : Node} (hcompile : compile source = .ok (.program statements))
    (hstatement : statement ∈ statements) (hformula : statement.formula? = some formula)
    (machine : Machine σ) (hbinds : formula.BindsIntegers machine.context.scope) :
    ((∃ n, formula.evaluate.runOn machine = (.ok (some (.int n)), machine)) ↔
      formula.TextFree ∧
      (∀ token, .leaf .number token ∈ formula.steps → Numeral.value token.text < 2 ^ 63) ∧
      ∀ op operator left right, .formula op operator left right ∈ formula.steps →
        Numeral.Fits ((Node.formula op operator left right).exact machine.context.scope)) ∧
    (∀ part ∈ formula.steps, ∀ n after,
      part.evaluate.runOn machine = (.ok (some (.int n)), after) →
        n.toInt = part.exact machine.context.scope) ∧
    (formula.TextFree →
      (∀ n, formula.evaluate.runOn machine ≠ (.ok (some (.int n)), machine)) →
      ∃ before node after fault, formula.steps = before ++ node :: after ∧
        (∀ earlier ∈ before, earlier.misfit? machine.context.scope = none) ∧
        node.misfit? machine.context.scope = some fault ∧
        formula.evaluate.runOn machine = (.error fault, machine)) := by
  have hread : formula.IsFormula := by
    obtain ⟨tokens, _, hparse⟩ := compile_eq_ok_iff.mp hcompile
    obtain ⟨_, ⟨⟩, hstatements⟩ := exists_statements_of_parse hparse
    exact (hstatements statement hstatement).isFormula hformula
  have hdigits := hasDigits_of_compile hcompile hstatement hformula hread
  refine ⟨?_, ?_, ?_⟩
  · rw [← Node.findSome?_misfit?_eq_none_iff, ← hread.exists_outcome_int_iff hdigits hbinds]
    constructor
    · rintro ⟨n, hrun⟩
      exact ⟨n, hread.outcome_eq_of_runOn hrun⟩
    · rintro ⟨n, houtcome⟩
      exact ⟨n, by rw [hread.runOn_evaluate, houtcome]; rfl⟩
  · -- a part of the formula is a formula on the same numerals and variables
    intro part hpart n after hrun
    have hpartRead := hread.of_mem_steps hpart
    exact (hpartRead.of_outcome_int (hdigits.of_mem_steps hpart) (hbinds.of_mem_steps hpart)
      (hpartRead.outcome_eq_of_runOn hrun)).2.1
  · intro htext hnoInteger
    rcases (hread.onIntegers hdigits hbinds htext).outcome_cases with
      ⟨n, houtcome, _, _⟩ | ⟨fault, houtcome, hsome⟩
    · exact absurd (by rw [hread.runOn_evaluate, houtcome]; rfl) (hnoInteger n)
    · obtain ⟨before, node, after, hsteps, hfault, hearlier⟩ :=
        List.findSome?_eq_some_iff.mp hsome
      refine ⟨before, node, after, fault, hsteps, hearlier, hfault, ?_⟩
      rw [hread.runOn_evaluate, houtcome]
      rfl

/-- The formula of `print x + 1 - 1#;`, whose sum may be too large for a difference that fits. -/
def detour : Node :=
  .formula .sub ⟨.minus, "-", ⟨12, 1⟩⟩
    (.formula .add ⟨.plus, "+", ⟨8, 1⟩⟩ (.leaf .word ⟨.word, "x", ⟨6, 1⟩⟩)
      (.leaf .number ⟨.number, "1", ⟨10, 1⟩⟩))
    (.leaf .number ⟨.number, "1", ⟨14, 1⟩⟩)

/-- A machine on which `x` is the largest integer. -/
def atMaximum : Machine Buffer where
  context := { scope := Scope.empty.define "x" (.int Int64.maxValue) }
  sink := {}

theorem evaluate_detour :
    compile "print x + 1 - 1#;" = .ok (.program [.print ⟨.print, "print", ⟨0, 1⟩⟩ detour]) ∧
      detour.BindsIntegers atMaximum.context.scope ∧
      Numeral.Fits (detour.exact atMaximum.context.scope) ∧
      ¬ ∃ n, detour.evaluate.runOn atMaximum = (.ok (some (.int n)), atMaximum) := by
  have hcollect : (Scanner.ofString "print x + 1 - 1#;").collect =
      ([⟨.print, "print", ⟨0, 1⟩⟩, ⟨.word, "x", ⟨6, 1⟩⟩, ⟨.plus, "+", ⟨8, 1⟩⟩,
        ⟨.number, "1", ⟨10, 1⟩⟩, ⟨.minus, "-", ⟨12, 1⟩⟩, ⟨.number, "1", ⟨14, 1⟩⟩,
        ⟨.hash, "#", ⟨15, 1⟩⟩, ⟨.semicolon, ";", ⟨16, 1⟩⟩], none) := by decide +kernel
  have hcompile : compile "print x + 1 - 1#;" =
      .ok (.program [.print ⟨.print, "print", ⟨0, 1⟩⟩ detour]) := by
    rw [compile_of_tokenize (tokenize_of_collect hcollect)]
    rfl
  have hget : atMaximum.context.scope.get? "x" = some (.int Int64.maxValue) := by
    simp [atMaximum, Scope.get?_define]
  have hbinds : detour.BindsIntegers atMaximum.context.scope := by
    intro name hname
    obtain rfl : name = ⟨.word, "x", ⟨6, 1⟩⟩ := by simpa [detour, Node.steps] using hname
    exact ⟨_, hget⟩
  have hone : Numeral.value "1" = 1 := rfl
  have hmax : Int64.maxValue.toInt = 9223372036854775807 := rfl
  refine ⟨hcompile, hbinds, ?_, ?_⟩
  · simp [detour, Node.exact, Arithmetic.exact, hget, hone, hmax, Numeral.Fits]
  · intro hinteger
    obtain ⟨_, _, hfits⟩ :=
      (evaluate_exact hcompile (List.mem_singleton_self _) rfl atMaximum hbinds).1.mp hinteger
    -- the sum inside the difference does not fit
    have hsum := hfits .add ⟨.plus, "+", ⟨8, 1⟩⟩ (.leaf .word ⟨.word, "x", ⟨6, 1⟩⟩)
      (.leaf .number ⟨.number, "1", ⟨10, 1⟩⟩) (by simp [detour, Node.steps])
    simp [Node.exact, Arithmetic.exact, hget, hone, hmax, Numeral.Fits] at hsum

/-- The formula of `print 1 + "a"#;`. -/
def mixedSum : Node :=
  .formula .add ⟨.plus, "+", ⟨8, 1⟩⟩ (.leaf .number ⟨.number, "1", ⟨6, 1⟩⟩)
    (.leaf .text ⟨.text, "\"a\"", ⟨10, 1⟩⟩)

/-- A formula with a text may have neither an integer nor a fault of integers. -/
theorem evaluate_mixedSum :
    compile "print 1 + \"a\"#;" = .ok (.program [.print ⟨.print, "print", ⟨0, 1⟩⟩ mixedSum]) ∧
      mixedSum.BindsIntegers Scope.empty ∧
      ∃ fault, (mixedSum.evaluate.runOn ({ sink := {} } : Machine Buffer)).1 = .error fault ∧
        fault = .type (.sum .number .string 1) ∧ (∀ text, fault ≠ .invalidNumber text) ∧
        ∀ operator line, fault ≠ .runtime (.overflow operator line) := by
  have hcollect : (Scanner.ofString "print 1 + \"a\"#;").collect =
      ([⟨.print, "print", ⟨0, 1⟩⟩, ⟨.number, "1", ⟨6, 1⟩⟩, ⟨.plus, "+", ⟨8, 1⟩⟩,
        ⟨.text, "\"a\"", ⟨10, 1⟩⟩, ⟨.hash, "#", ⟨13, 1⟩⟩, ⟨.semicolon, ";", ⟨14, 1⟩⟩], none) := by
    decide +kernel
  refine ⟨?_, ?_, ?_⟩
  · rw [compile_of_tokenize (tokenize_of_collect hcollect)]
    rfl
  · intro name hname
    simp [mixedSum, Node.steps] at hname
  · exact ⟨_, rfl, rfl, fun _ => nofun, fun _ _ => nofun⟩

end EmojiScript
