import EmojiScript.Proofs.Evaluation.Reachable
import EmojiScript.Proofs.Scanner.Spelling

namespace EmojiScript

/-!
# Contexts as sources

A well-formed context can be written down as a source: an assignment for each variable and a
definition for each alias, in any order.  There are no negative numerals, so a negative integer is
written as a difference, and the least one, whose magnitude is no numeral either, as two.  A fresh
context on which this source is run becomes the context that was written down.

* `Entry`, `Context.entries` — the entries of the two tables.
* `Entry.line`, `sourceOf` — what is written for them.
* `Entry.statement` — the statement that a line is.
* `runSource_sourceOf` — the run of such a source.
* `Context.Reachable.wellFormed_and_rebuilt` — reachable contexts.
-/

/-! ### Entries -/

/-- An entry of one of the two tables. -/
inductive Entry where
  /-- The value of a variable. -/
  | stored (name : String) (value : Value)
  /-- The text of an alias. -/
  | given (key text : String)
deriving DecidableEq, Repr

/-- The entries of both tables. -/
def Context.entries (context : Context) : List Entry :=
  context.scope.values.toList.map (fun (name, value) => .stored name value) ++
    context.aliases.entries.toList.map (fun (key, text) => .given key text)

/-- A table holds this entry. -/
def Context.Holds (context : Context) : Entry → Prop
  | .stored name value => context.scope.get? name = some value
  | .given key text => context.aliases.get? key = some text

theorem Context.mem_entries_iff {context : Context} {entry : Entry} :
    entry ∈ context.entries ↔ context.Holds entry := by
  cases entry with
  | stored name value =>
    simp [entries, Holds, Scope.get?, Std.ExtTreeMap.mem_toList_iff_getElem?_eq_some]
  | given key text =>
    simp [entries, Holds, AliasTable.get?, Std.ExtTreeMap.mem_toList_iff_getElem?_eq_some]

/-! ### What is written -/

/-- What is written for an integer. -/
def integerFormula (n : Int64) : String :=
  if n = Int64.minValue then "0 - 9223372036854775807 - 1"
  else if n.toInt < 0 then "0 - " ++ n.toInt.natAbs.repr
  else n.toInt.natAbs.repr

/-- What is written for a value. -/
def Value.formula : Value → String
  | int n => integerFormula n
  | text s => quote s

/-- The line for an entry. -/
def Entry.line : Entry → String
  | .stored name value => name ++ " = " ++ value.formula ++ "#;\n"
  | .given key text => "ejkey " ++ key ++ " " ++ quote text ++ "#;\n"

/-- The source with a line for every entry. -/
def sourceOf (entries : List Entry) : String := String.join (entries.map Entry.line)

/-! ### What it is read as -/

/-- The tokens and the tree of what is written for an integer. -/
def integerTokens (n : Int64) : List Token :=
  if n = Int64.minValue then
    [.placeless .number (Nat.repr 0), .placeless .minus "-",
      .placeless .number (Nat.repr 9223372036854775807), .placeless .minus "-",
      .placeless .number (Nat.repr 1)]
  else if n.toInt < 0 then
    [.placeless .number (Nat.repr 0), .placeless .minus "-",
      .placeless .number n.toInt.natAbs.repr]
  else [.placeless .number n.toInt.natAbs.repr]

/-- A numeral as a leaf. -/
def numeralLeaf (n : Nat) : Node := .leaf .number (.placeless .number n.repr)

/-- The difference of two formulas. -/
def difference (left right : Node) : Node := .formula .sub (.placeless .minus "-") left right

def integerTree (n : Int64) : Node :=
  if n = Int64.minValue then
    difference (difference (numeralLeaf 0) (numeralLeaf 9223372036854775807)) (numeralLeaf 1)
  else if n.toInt < 0 then difference (numeralLeaf 0) (numeralLeaf n.toInt.natAbs)
  else numeralLeaf n.toInt.natAbs

def Value.tokens : Value → List Token
  | int n => integerTokens n
  | text s => [.placeless .text (quote s)]

def Value.tree : Value → Node
  | int n => integerTree n
  | text s => .leaf .text (.placeless .text (quote s))

/-- The tokens that end a statement. -/
def ending : List Token := [.placeless .hash "#", .placeless .semicolon ";"]

namespace Entry

def tokens : Entry → List Token
  | stored name value => .placeless .word name :: .placeless .equals "=" :: (value.tokens ++ ending)
  | given key text =>
    .placeless .ejkey "ejkey" :: .placeless .word key :: .placeless .text (quote text) :: ending

def statement : Entry → Node
  | stored name value =>
    .assign (.placeless .equals "=") (.leaf .word (.placeless .word name)) value.tree
  | given key text =>
    .defineAlias (.placeless .ejkey "ejkey") (.leaf .word (.placeless .word key))
      (.leaf .text (.placeless .text (quote text)))

/-- The tokens of a line are its statement. -/
theorem parse_tokens (entry : Entry) : parse entry.tokens = .ok (.program [entry.statement]) := by
  cases entry with
  | stored name value =>
    cases value with
    | int n =>
      simp only [tokens, statement, Value.tokens, Value.tree, integerTokens, integerTree]
      split
      next => rfl
      next =>
        split
        next => rfl
        next => rfl
    | text => rfl
  | given => rfl

end Entry

/-! ### Scanning it -/

/-- A numeral in front of a text that is subtracted from it. -/
theorem Scans.minus (n : Nat) {rest : List Char} {tokens : List Token} (h : Scans rest tokens) :
    Scans (n.repr.toList ++ ' ' :: '-' :: ' ' :: rest)
      (.placeless .number n.repr :: .placeless .minus "-" :: tokens) := by
  have hspace : Scans (' ' :: rest) tokens := h.blank (by decide)
  have hminus : Scans ('-' :: ' ' :: rest) (.placeless .minus "-" :: tokens) :=
    hspace.mark rfl (by decide)
  have hspace : Scans (' ' :: '-' :: ' ' :: rest) (.placeless .minus "-" :: tokens) :=
    hminus.blank (by decide)
  exact hspace.number n (by decide)

theorem scans_integerFormula (n : Int64) {rest : List Char} {tokens : List Token}
    (h : Scans ('#' :: rest) tokens) :
    Scans ((integerFormula n).toList ++ '#' :: rest) (integerTokens n ++ tokens) := by
  unfold integerFormula integerTokens
  split
  next => exact ((h.number 1 (by decide)).minus 9223372036854775807).minus 0
  next =>
    have hmagnitude := h.number n.toInt.natAbs (by decide)
    split
    next => simpa using hmagnitude.minus 0
    next => exact hmagnitude

theorem Value.scans_formula {value : Value} (hvalue : value.Quoteless) {rest : List Char}
    {tokens : List Token} (h : Scans ('#' :: rest) tokens) :
    Scans (value.formula.toList ++ '#' :: rest) (value.tokens ++ tokens) := by
  cases value with
  | int n => exact scans_integerFormula n h
  | text s => exact h.text hvalue

/-- The end of a line. -/
theorem Scans.ending {rest : List Char} {tokens : List Token} (h : Scans rest tokens) :
    Scans ('#' :: ';' :: '\n' :: rest) (ending ++ tokens) := by
  have hbreak : Scans ('\n' :: rest) tokens := h.blank (by decide)
  have hsemicolon : Scans (';' :: '\n' :: rest) (.placeless .semicolon ";" :: tokens) :=
    hbreak.mark rfl (by decide)
  exact hsemicolon.mark rfl (by decide)

/-- What can be written for an entry is written. -/
def Entry.Writable : Entry → Prop
  | stored name value => IsName name ∧ value.Quoteless
  | given key text => IsName key ∧ Quoteless text

/-- **Lines are scanned as they were written.** -/
theorem Entry.scans_line {entry : Entry} (hentry : entry.Writable) {rest : List Char}
    {more : List Token} (h : Scans rest more) :
    Scans (entry.line.toList ++ rest) (entry.tokens ++ more) := by
  cases entry with
  | stored name value =>
    obtain ⟨hname, hvalue⟩ := hentry
    have hformula := (Value.scans_formula hvalue h.ending).blank (c := ' ') (by decide)
    have hequals : Scans ('=' :: ' ' :: _) (.placeless .equals "=" :: _) :=
      hformula.mark rfl (by decide)
    have hline := (hequals.blank (c := ' ') (by decide)).word hname (by decide)
    simpa [line, tokens] using hline
  | given key text =>
    obtain ⟨hkey, htext⟩ := hentry
    have hshown := (Scans.text htext h.ending).blank (c := ' ') (by decide)
    have hline := ((hshown.word hkey (by decide)).blank (c := ' ') (by decide)).ejkey
    simpa [line, tokens] using hline

theorem scans_sourceOf {entries : List Entry} (h : ∀ entry ∈ entries, entry.Writable) :
    Scans (sourceOf entries).toList (entries.flatMap Entry.tokens) := by
  induction entries with
  | nil => exact .nil
  | cons entry rest ih =>
    obtain ⟨hentry, hrest⟩ := List.forall_mem_cons.mp h
    have hsource : (sourceOf (entry :: rest)).toList = entry.line.toList ++ (sourceOf rest).toList := by
      simp [sourceOf]
    rw [hsource, List.flatMap_cons]
    exact entry.scans_line hentry (ih hrest)

/-! ### Reading it -/

theorem parse_flatMap_tokens (entries : List Entry) :
    parse (entries.flatMap Entry.tokens) = .ok (.program (entries.map Entry.statement)) := by
  induction entries with
  | nil => rfl
  | cons entry rest ih =>
    rw [List.flatMap_cons]
    exact parse_append entry.parse_tokens ih

/-- Tokens that differ in their places from those of a program are that program, but for places. -/
theorem exists_parse_of_alike {tokens others : List Token} {after : List Node}
    (h : List.Forall₂ Token.Alike tokens others) (hparse : parse others = .ok (.program after)) :
    ∃ before, parse tokens = .ok (.program before) ∧
      before.map (Node.relocate .nowhere) = after.map (Node.relocate .nowhere) := by
  have hrun : Reading.run 0 {} others = ⟨⟨after.reverse ++ [], .statement⟩, [], none⟩ :=
    run_of_parse hparse []
  obtain ⟨hfailure, _, hdone⟩ := Reading.run_of_alike h
  rw [hrun] at hfailure hdone
  refine ⟨(Reading.run 0 {} tokens).reading.done.reverse, by rw [parse_eq_run, hfailure], ?_⟩
  rw [List.map_reverse, hdone]
  simp

/-- **Sources are read as what was written down.** -/
theorem exists_compile_sourceOf {entries : List Entry} (h : ∀ entry ∈ entries, entry.Writable) :
    ∃ statements, compile (sourceOf entries) = .ok (.program statements) ∧
      statements.map (Node.relocate .nowhere) =
        (entries.map Entry.statement).map (Node.relocate .nowhere) := by
  obtain ⟨tokens, hcompletes, halike⟩ := scans_sourceOf h (Scanner.ofString (sourceOf entries)) rfl
  obtain ⟨statements, hparse, hsame⟩ := exists_parse_of_alike halike (parse_flatMap_tokens entries)
  exact ⟨statements, (compile_of_tokenize (tokenize_of_completes hcompletes)).trans hparse, hsame⟩

/-! ### Running it -/

variable {scope : Scope}

theorem outcome_numeralLeaf {n : Nat} {word : Int64} (h : word.toInt = n) :
    (numeralLeaf n).outcome scope = .ok (.int word) := by
  have hread : Numeral.read? n.repr = some word := by
    rw [Numeral.read?_of_isDigits (Numeral.isDigits_repr n), Numeral.value_repr]
    exact Numeral.ofInt?_eq_some_iff.mpr h
  simp only [numeralLeaf, Node.outcome, Leaf.outcome, Token.placeless, hread]

theorem outcome_difference {left right : Node} {a b word : Int64}
    (hleft : left.outcome scope = .ok (.int a)) (hright : right.outcome scope = .ok (.int b))
    (h : word.toInt = a.toInt - b.toInt) :
    (difference left right).outcome scope = .ok (.int word) := by
  have hword : Arithmetic.sub.words? a b = some word := Numeral.ofInt?_eq_some_iff.mpr h
  have happly : Arithmetic.sub.apply (.placeless .minus "-") (.int a) (.int b) =
      .ok (.int word) := by
    simp only [Arithmetic.apply, hword]
  rw [difference, Node.outcome, hleft, hright]
  exact happly

/-- What is written for an integer comes to it. -/
theorem outcome_integerTree (n : Int64) : (integerTree n).outcome scope = .ok (.int n) := by
  have hzero : (numeralLeaf 0).outcome scope = .ok (.int 0) := outcome_numeralLeaf (by decide)
  unfold integerTree
  split
  next hmin =>
    have hmax : (numeralLeaf 9223372036854775807).outcome scope = .ok (.int Int64.maxValue) :=
      outcome_numeralLeaf (by decide)
    have hone : (numeralLeaf 1).outcome scope = .ok (.int 1) := outcome_numeralLeaf (by decide)
    have hnearly : (difference (numeralLeaf 0) (numeralLeaf 9223372036854775807)).outcome scope =
        .ok (.int (-Int64.maxValue)) := outcome_difference hzero hmax (by decide)
    rw [hmin]
    exact outcome_difference hnearly hone (by decide)
  next hmin =>
    have hlow : Int64.minValue.toInt < n.toInt := by
      have hne : Int64.minValue.toInt ≠ n.toInt := fun h => hmin (Int64.toInt_inj.mp h.symm)
      have hle := n.minValue_le_toInt
      omega
    have hhigh := Numeral.toInt_le_maxValue n
    rw [Int64.toInt_minValue] at hlow
    rw [Int64.toInt_maxValue] at hhigh
    obtain ⟨magnitude, _, hmagnitude⟩ : ∃ word : Int64, Numeral.ofInt? n.toInt.natAbs = some word ∧
        word.toInt = n.toInt.natAbs :=
      Numeral.exists_ofInt?_of_fits ⟨by omega, by omega⟩
    have hleaf : (numeralLeaf n.toInt.natAbs).outcome scope = .ok (.int magnitude) :=
      outcome_numeralLeaf hmagnitude
    split
    next hnegative =>
      refine outcome_difference hzero hleaf ?_
      rw [hmagnitude, Int64.toInt_zero]
      omega
    next hnonnegative =>
      have hsame : magnitude = n := Int64.toInt_inj.mp (by omega)
      rw [hleaf, hsame]

theorem unquote_quote (text : String) : unquote (quote text) = text := by
  have hquote : quote text = String.ofList ('"' :: (text.toList ++ ['"'])) := by
    rw [← String.toList_inj]
    simp [quote]
  rw [hquote, unquote_quoted, String.ofList_toList]

theorem Value.outcome_tree (value : Value) : value.tree.outcome scope = .ok value := by
  cases value with
  | int n => exact outcome_integerTree n
  | text s =>
    show Except.ok (Value.text (unquote (quote s))) = _
    rw [unquote_quote]

namespace Entry

/-- The context with an entry made. -/
def store (context : Context) : Entry → Context
  | stored name value => context.define name value
  | given key text => context.defineAlias key text

/-- The statement of an entry makes it and writes nothing. -/
theorem effect_statement (entry : Entry) (context : Context) :
    ∃ value?, entry.statement.effect context =
      .ok { value?, context := entry.store context } := by
  cases entry with
  | stored name value =>
    refine ⟨some value, ?_⟩
    simp only [statement, Node.effect, Value.outcome_tree]
    rfl
  | given key text =>
    refine ⟨none, ?_⟩
    have htext : (Node.leaf .text (.placeless .text (quote text))).nameIn context.scope =
        .ok text := by
      show Except.ok (unquote (quote text)) = _
      rw [unquote_quote]
    simp only [statement, Node.effect, htext]
    rfl

theorem isStatement_statement (entry : Entry) : entry.statement.IsStatement := by
  obtain ⟨statements, hprogram, hstatements⟩ := exists_statements_of_parse entry.parse_tokens
  obtain rfl := Node.program.inj hprogram
  exact hstatements _ (List.mem_singleton_self _)

end Entry

variable {σ : Type} [Sink σ]

/-- **The statements of entries make them.** -/
theorem succeed_statements (entries : List Entry) (machine : Machine σ) :
    Node.Succeed (entries.map Entry.statement) machine
      { machine with context := entries.foldl Entry.store machine.context } := by
  induction entries generalizing machine with
  | nil => exact .nil machine
  | cons entry rest ih =>
    obtain ⟨value?, heffect⟩ := entry.effect_statement machine.context
    have hrun : entry.statement.evaluate.runOn machine =
        (.ok value?, { machine with context := entry.store machine.context }) := by
      rw [entry.isStatement_statement.runOn_evaluate, heffect]
      rfl
    exact .cons hrun (ih _)

/-- Only the sink's own fault is that of a sink elsewhere. -/
theorem Fault.eq_sink_of_relocate {move : Relocation} {fault : Fault} {reason : String}
    (h : fault.relocate move = .sink reason) : fault = .sink reason := by
  cases fault with
  | sink => exact h
  | _ => cases h

/-- So a result is that of a sink if it is elsewhere. -/
theorem eq_mapError_sink_of_relocate {α : Type} {move : Relocation} {result : Except Fault α}
    {answer : Except String α}
    (h : result.mapError (Fault.relocate move) =
      (answer.mapError Fault.sink).mapError (Fault.relocate move)) :
    result = answer.mapError Fault.sink := by
  cases result with
  | error fault =>
    cases answer with
    | error reason => exact congrArg Except.error (Fault.eq_sink_of_relocate (Except.error.inj h))
    | ok => cases h
  | ok a =>
    cases answer with
    | error => cases h
    | ok b => exact congrArg Except.ok (Except.ok.inj h)

/-- **The source of entries makes them**, writes nothing and flushes the sink. -/
theorem runSource_sourceOf {entries : List Entry} (h : ∀ entry ∈ entries, entry.Writable)
    (machine : Machine σ) :
    machine.runSource (sourceOf entries) =
      ((Sink.flush machine.sink).1.mapError .sink,
        { context := entries.foldl Entry.store machine.context,
          sink := (Sink.flush machine.sink).2 }) := by
  obtain ⟨statements, hcompile, hsame⟩ := exists_compile_sourceOf h
  rw [Machine.runSource_of_ok hcompile]
  have hread : ∀ statement ∈ statements, statement.IsStatement := by
    obtain ⟨_, ⟨⟩, hstatements⟩ := exists_statements_of_compile hcompile
    exact fun statement hmem => (hstatements statement hmem).1
  have hwritten : ∀ statement ∈ entries.map Entry.statement, statement.IsStatement := by
    intro statement hmem
    obtain ⟨entry, _, rfl⟩ := List.mem_map.mp hmem
    exact entry.isStatement_statement
  obtain ⟨hmachine, hresult⟩ := Node.run_of_relocate_eq hread hwritten hsame machine
  rw [(succeed_statements entries machine).runOn_run] at hmachine hresult
  exact Prod.ext (eq_mapError_sink_of_relocate hresult) hmachine

/-! ### What it leaves -/

/-- Entries are made one after the other.  What is looked up behind them is `target`, if one of them
made it and none of them anything else, or it is what was there before. -/
theorem lookup_foldl_store {α : Type} (get : Context → Option α) (made : Entry → Option α)
    {target : Option α} {entries : List Entry}
    (hstep : ∀ context entry, get (entry.store context) = (made entry).or (get context))
    (hmade : ∀ entry ∈ entries, ∀ a, made entry = some a → target = some a) (context : Context) :
    get (entries.foldl Entry.store context) = target ∨
      (∀ entry ∈ entries, made entry = none) ∧
        get (entries.foldl Entry.store context) = get context := by
  induction entries generalizing context with
  | nil => exact .inr ⟨by simp, rfl⟩
  | cons entry rest ih =>
    obtain ⟨hfirst, hrest⟩ := List.forall_mem_cons.mp hmade
    rw [List.foldl_cons]
    rcases ih hrest (entry.store context) with htarget | ⟨hnone, hkept⟩
    · exact .inl htarget
    · rw [hstep] at hkept
      cases hentry : made entry with
      | none =>
        rw [hentry, Option.none_or] at hkept
        exact .inr ⟨List.forall_mem_cons.mpr ⟨hentry, hnone⟩, hkept⟩
      | some a =>
        rw [hentry, Option.some_or] at hkept
        exact .inl (hkept.trans (hfirst a hentry).symm)

/-- Entries that make `target` if it is something leave it behind, if it was missing before where it
is nothing. -/
theorem lookup_foldl_store_eq {α : Type} (get : Context → Option α) (made : Entry → Option α)
    {target : Option α} {entries : List Entry} {context : Context}
    (hstep : ∀ context entry, get (entry.store context) = (made entry).or (get context))
    (hmade : ∀ entry ∈ entries, ∀ a, made entry = some a → target = some a)
    (hall : ∀ a, target = some a → ∃ entry ∈ entries, made entry = some a)
    (hstart : target = none → get context = none) :
    get (entries.foldl Entry.store context) = target := by
  rcases lookup_foldl_store get made hstep hmade context with htarget | ⟨hnone, hkept⟩
  · exact htarget
  · rw [hkept]
    cases target with
    | none => exact hstart rfl
    | some a =>
      obtain ⟨entry, hmem, hentry⟩ := hall a rfl
      rw [hnone entry hmem] at hentry
      cases hentry

/-- The value that an entry stores under a name, if it does. -/
def Entry.storedAs (name : String) : Entry → Option Value
  | stored other value => if other = name then some value else none
  | given .. => none

/-- The text that an entry gives to a key, if it does. -/
def Entry.givenTo (key : String) : Entry → Option String
  | given other text => if other = key then some text else none
  | stored .. => none

theorem Entry.storedAs_eq_some_iff {name : String} {value : Value} {entry : Entry} :
    entry.storedAs name = some value ↔ entry = .stored name value := by
  cases entry <;> simp [storedAs]

theorem Entry.givenTo_eq_some_iff {key text : String} {entry : Entry} :
    entry.givenTo key = some text ↔ entry = .given key text := by
  cases entry <;> simp [givenTo]

/-- **A well-formed context is rebuilt** from a fresh one by its entries, in whatever order they are
made. -/
theorem Context.WellFormed.foldl_store {context : Context} {entries : List Entry}
    (h : context.WellFormed) (hentries : ∀ entry, entry ∈ entries ↔ context.Holds entry) :
    entries.foldl Entry.store {} = context := by
  have hscope : (entries.foldl Entry.store {}).scope = context.scope := by
    refine Scope.ext fun name => ?_
    refine lookup_foldl_store_eq (fun context => context.scope.get? name) (Entry.storedAs name)
      ?_ ?_ ?_ fun _ => Scope.get?_empty name
    · intro context entry
      cases entry with
      | stored other value =>
        show (context.scope.define other value).get? name = _
        rw [Scope.get?_define, Entry.storedAs]
        split <;> rfl
      | given => rfl
    · rintro entry hmem value hstored
      obtain rfl := Entry.storedAs_eq_some_iff.mp hstored
      exact (hentries _).mp hmem
    · intro value hvalue
      exact ⟨.stored name value, (hentries _).mpr hvalue, Entry.storedAs_eq_some_iff.mpr rfl⟩
  have haliases : (entries.foldl Entry.store {}).aliases = context.aliases := by
    refine AliasTable.ext fun key => ?_
    refine lookup_foldl_store_eq (fun context => context.aliases.get? key) (Entry.givenTo key)
      ?_ ?_ ?_ ?_
    · intro context entry
      cases entry with
      | stored => rfl
      | given other text =>
        show (context.aliases.define other text).get? key = _
        rw [AliasTable.get?_define, Entry.givenTo]
        split <;> rfl
    · rintro entry hmem text hgiven
      obtain rfl := Entry.givenTo_eq_some_iff.mp hgiven
      exact (hentries _).mp hmem
    · intro text htext
      exact ⟨.given key text, (hentries _).mpr htext, Entry.givenTo_eq_some_iff.mpr rfl⟩
    · -- the aliases of a fresh context are in every well-formed one
      intro hnone
      by_contra hsome
      have hkey := (AliasTable.isSome_get?_default key).mp (Option.isSome_iff_ne_none.mpr hsome)
      have hfound := h.defaults key hkey
      rw [hnone] at hfound
      cases hfound
  exact congrArg₂ Context.mk hscope haliases

/-! ### Reachable contexts -/

/-- Whatever a well-formed context holds can be written down. -/
theorem Context.WellFormed.writable {context : Context} (h : context.WellFormed) {entry : Entry}
    (hentry : context.Holds entry) : entry.Writable := by
  cases entry with
  | stored name value => exact h.stored name value hentry
  | given key text => exact h.given key text hentry

/-- **Reachable contexts are well formed and can be rebuilt.** Take a context that runs of sources
have left, successful or not, on a fresh one.  Its variables and its keys are runs of lowercase
letters that begin with no keyword, none of its texts has a quote in it, and the default keys have
aliases.  List its entries in any order, and run the source with a line for each of them on a fresh
context: nothing is written, nothing fails but a flush that the sink refuses, and the context that is
left is the same. -/
theorem Context.Reachable.wellFormed_and_rebuilt {context : Context} (h : context.Reachable) :
    context.WellFormed ∧
      ∀ entries : List Entry, entries.Perm context.entries →
        ∀ {σ : Type} [Sink σ] (sink : σ), runSource (sourceOf entries) sink =
          (((Sink.flush sink).1.mapError Fault.sink).map fun _ => context, (Sink.flush sink).2) := by
  refine ⟨h.wellFormed, ?_⟩
  intro entries hperm σ _ sink
  have hentries : ∀ entry, entry ∈ entries ↔ context.Holds entry := by
    intro entry
    rw [hperm.mem_iff, Context.mem_entries_iff]
  have hwritable : ∀ entry ∈ entries, entry.Writable :=
    fun entry hmem => h.wellFormed.writable ((hentries entry).mp hmem)
  rw [runSource, runSource_sourceOf hwritable, h.wellFormed.foldl_store hentries]

/-- A source whose last statement fails. -/
def giveThenMissing : String := "x = \"a\"#;ejkey love cat#;print y#;"

/-- What it leaves on a fresh context. -/
def behindMissing : Context where
  scope := Scope.empty.define "x" (.text "a")
  aliases := AliasTable.default.define "love" "cat"

/-- A failed run leaves a context that can be rebuilt. -/
theorem wellFormed_and_rebuilt_behindMissing :
    (Machine.runSource ({ sink := {} } : Machine Buffer) giveThenMissing).1 =
        .error (.undefinedVariable "y") ∧
      behindMissing.Reachable ∧ behindMissing.WellFormed ∧
      (runSource (sourceOf behindMissing.entries) ({} : Buffer)).1 = .ok behindMissing := by
  have hcollect : (Scanner.ofString giveThenMissing).collect =
      ([⟨.word, "x", ⟨0, 1⟩⟩, ⟨.equals, "=", ⟨2, 1⟩⟩, ⟨.text, "\"a\"", ⟨4, 1⟩⟩,
        ⟨.hash, "#", ⟨7, 1⟩⟩, ⟨.semicolon, ";", ⟨8, 1⟩⟩, ⟨.ejkey, "ejkey", ⟨9, 1⟩⟩,
        ⟨.word, "love", ⟨15, 1⟩⟩, ⟨.word, "cat", ⟨20, 1⟩⟩, ⟨.hash, "#", ⟨23, 1⟩⟩,
        ⟨.semicolon, ";", ⟨24, 1⟩⟩, ⟨.print, "print", ⟨25, 1⟩⟩, ⟨.word, "y", ⟨31, 1⟩⟩,
        ⟨.hash, "#", ⟨32, 1⟩⟩, ⟨.semicolon, ";", ⟨33, 1⟩⟩], none) := by decide +kernel
  have hrun : Machine.runSource ({ sink := {} } : Machine Buffer) giveThenMissing =
      (.error (.undefinedVariable "y"), { context := behindMissing, sink := {} }) := by
    rw [Machine.runSource, compile_of_tokenize (tokenize_of_collect hcollect)]
    rfl
  have hreachable : behindMissing.Reachable := by
    have hafter := Context.Reachable.run ({} : Buffer) giveThenMissing .fresh
    rwa [hrun] at hafter
  obtain ⟨hform, hrebuilt⟩ := hreachable.wellFormed_and_rebuilt
  refine ⟨by rw [hrun], hreachable, hform, ?_⟩
  rw [hrebuilt _ (List.Perm.refl _)]
  rfl

end EmojiScript
