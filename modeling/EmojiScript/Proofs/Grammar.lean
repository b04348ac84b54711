import EmojiScript.Parser.Expectation
import EmojiScript.Tree.Basic

namespace EmojiScript

/-!
# The grammar

The grammar stands on its own here, apart from the machine that reads programs by it.  `Derives`
is the grammar over kinds of token, rule by rule and without limits.  `Prescribes` says in addition
which tree the tokens of a phrase amount to: a chain of operations leans to the left, parentheses
only regroup, and every leaf and operation holds the very token that stands for it.

* `derives_program_iff` — the two agree on what a program is.
* `inOrder_eq_of_prescribes` — a prescribed tree, read in source order, is its tokens without
  parentheses and ends of statements.
* `WithinLimits`, `Fits` — the two limits of a statement, counted on its tokens.
-/

namespace Grammar

/-! ### Phrases of kinds -/

/-- What the grammar has rules for. -/
inductive Phrase where
  | program
  | statement
  | formula
  /-- What may follow the first term of a formula: operations, each with a further term. -/
  | operations
  | term
deriving DecidableEq, Repr, Inhabited

/-- A list of kinds is a phrase of the grammar. -/
inductive Derives : Phrase → List Kind → Prop where
  /-- `program → ( statement "#" ";" )*`: no more statements. -/
  | done : Derives .program []
  /-- `program → ( statement "#" ";" )*`: one more statement. -/
  | next {statement rest : List Kind} : Derives .statement statement → Derives .program rest →
      Derives .program (statement ++ .hash :: .semicolon :: rest)
  /-- `statement → word "=" formula`. -/
  | assign {formula : List Kind} : Derives .formula formula →
      Derives .statement (.word :: .equals :: formula)
  /-- `statement → "ejkey" word ( emoji | text | word )`. -/
  | defineAlias {shown : Kind} : shown = .emoji ∨ shown = .text ∨ shown = .word →
      Derives .statement [.ejkey, .word, shown]
  /-- `statement → ( "print" | "ejprint" ) formula`. -/
  | print {keyword : Kind} {formula : List Kind} : keyword = .print ∨ keyword = .ejprint →
      Derives .formula formula → Derives .statement (keyword :: formula)
  /-- `formula → term ( ( "+" | "-" ) term )*`. -/
  | formula {first rest : List Kind} : Derives .term first → Derives .operations rest →
      Derives .formula (first ++ rest)
  /-- `( ( "+" | "-" ) term )*`: no more operations. -/
  | last : Derives .operations []
  /-- `( ( "+" | "-" ) term )*`: one more operation. -/
  | more {sign : Kind} {right rest : List Kind} : sign = .plus ∨ sign = .minus →
      Derives .term right → Derives .operations rest →
      Derives .operations (sign :: (right ++ rest))
  /-- `term → "(" formula ")"`. -/
  | group {inner : List Kind} : Derives .formula inner →
      Derives .term (.openParen :: (inner ++ [.closeParen]))
  /-- `term → text | number | word`. -/
  | leaf {kind : Kind} : kind = .text ∨ kind = .number ∨ kind = .word → Derives .term [kind]

/-! ### Phrases of tokens and their trees -/

/-- A list of tokens is a phrase of the grammar, and amounts to the tree. -/
inductive Prescribes : Phrase → List Token → Node → Prop where
  | done : Prescribes .program [] (.program [])
  /-- The statements of a program stand in the tree in their order. -/
  | next {tokens rest : List Token} {hash semicolon : Token} {statement : Node}
      {statements : List Node} : Prescribes .statement tokens statement → hash.kind = .hash →
      semicolon.kind = .semicolon → Prescribes .program rest (.program statements) →
      Prescribes .program (tokens ++ hash :: semicolon :: rest) (.program (statement :: statements))
  | assign {name operator : Token} {tokens : List Token} {value : Node} : name.kind = .word →
      operator.kind = .equals → Prescribes .formula tokens value →
      Prescribes .statement (name :: operator :: tokens) (.assign operator (.leaf .word name) value)
  | defineAlias {keyword key shown : Token} {form : Leaf} : keyword.kind = .ejkey →
      key.kind = .word → form ≠ .number → shown.kind = form.kind →
      Prescribes .statement [keyword, key, shown]
        (.defineAlias keyword (.leaf .word key) (.leaf form shown))
  | print {operator : Token} {tokens : List Token} {operand : Node} : operator.kind = .print →
      Prescribes .formula tokens operand →
      Prescribes .statement (operator :: tokens) (.print operator operand)
  | printAlias {operator : Token} {tokens : List Token} {operand : Node} :
      operator.kind = .ejprint → Prescribes .formula tokens operand →
      Prescribes .statement (operator :: tokens) (.printAlias operator operand)
  /-- A single term is a formula. -/
  | single {tokens : List Token} {node : Node} : Prescribes .term tokens node →
      Prescribes .formula tokens node
  /-- One more operation takes all that stands before it as its left operand. -/
  | chain {before right : List Token} {operator : Token} {op : Arithmetic} {left operand : Node} :
      Prescribes .formula before left → operator.kind = op.kind → Prescribes .term right operand →
      Prescribes .formula (before ++ operator :: right) (.formula op operator left operand)
  /-- Parentheses leave no trace in the tree. -/
  | group {opening closing : Token} {inner : List Token} {node : Node} :
      opening.kind = .openParen → Prescribes .formula inner node → closing.kind = .closeParen →
      Prescribes .term (opening :: (inner ++ [closing])) node
  | leaf {token : Token} {form : Leaf} : form ≠ .emoji → token.kind = form.kind →
      Prescribes .term [token] (.leaf form token)

/-! ### The two agree -/

/-- The kinds of the two operations are `+` and `-`. -/
theorem exists_arithmetic_iff {kind : Kind} :
    (∃ op : Arithmetic, kind = op.kind) ↔ kind = .plus ∨ kind = .minus := by
  constructor
  · rintro ⟨op, rfl⟩
    cases op <;> simp [Arithmetic.kind]
  · rintro (rfl | rfl)
    · exact ⟨.add, rfl⟩
    · exact ⟨.sub, rfl⟩

/-- An operation and a further term may be put at the end of a run of operations. -/
theorem Derives.operations_concat {rest right : List Kind} {sign : Kind}
    (h : Derives .operations rest) (hsign : sign = .plus ∨ sign = .minus)
    (hright : Derives .term right) : Derives .operations (rest ++ sign :: right) := by
  -- along the operations, which grow at their end although the rule adds them in front
  generalize hphrase : Phrase.operations = phrase at h
  induction h with
  | last => simpa using Derives.more hsign hright .last
  | more hsign' hright' _ _ ih =>
    simpa [List.append_assoc] using Derives.more hsign' hright' (ih rfl)
  | _ => cases hphrase

/-- An operation and a further term may be put at the end of a formula. -/
theorem Derives.chain {before right : List Kind} {sign : Kind} (h : Derives .formula before)
    (hsign : sign = .plus ∨ sign = .minus) (hright : Derives .term right) :
    Derives .formula (before ++ sign :: right) := by
  cases h with
  | formula hfirst hrest =>
    rw [List.append_assoc]
    exact .formula hfirst (hrest.operations_concat hsign hright)

/-- The tokens of a prescribed tree are a phrase by their kinds. -/
theorem derives_of_prescribes {phrase : Phrase} {tokens : List Token} {node : Node}
    (h : Prescribes phrase tokens node) : Derives phrase (tokens.map Token.kind) := by
  induction h with
  | done => exact .done
  | next _ hhash hsemicolon _ statement rest =>
    simpa [hhash, hsemicolon] using Derives.next statement rest
  | assign hname hoperator _ formula =>
    simpa [hname, hoperator] using Derives.assign formula
  | @defineAlias keyword key shown form hkeyword hkey hform hshown =>
    have hkind : form.kind = .emoji ∨ form.kind = .text ∨ form.kind = .word := by
      cases form <;> simp_all [Leaf.kind]
    simpa [hkeyword, hkey, hshown] using Derives.defineAlias hkind
  | print hoperator _ formula => exact Derives.print (.inl hoperator) formula
  | printAlias hoperator _ formula => exact Derives.print (.inr hoperator) formula
  | single _ term => simpa using Derives.formula term .last
  | chain _ hoperator _ formula term =>
    have hsign := exists_arithmetic_iff.mp ⟨_, hoperator⟩
    simpa using formula.chain hsign term
  | group hopening _ hclosing formula =>
    simpa [hopening, hclosing] using Derives.group formula
  | @leaf token form hform htoken =>
    have hkind : form.kind = .text ∨ form.kind = .number ∨ form.kind = .word := by
      cases form <;> simp_all [Leaf.kind]
    simpa [htoken] using Derives.leaf hkind

/-- What a phrase by kinds has to offer on the side of trees: a tree or, where it goes on with a
formula that has begun, a tree for the longer formula. -/
def Realised : Phrase → List Token → Prop
  | .program, tokens => ∃ statements, Prescribes .program tokens (.program statements)
  | .operations, tokens => ∀ before left, Prescribes .formula before left →
      ∃ node, Prescribes .formula (before ++ tokens) node
  | phrase, tokens => ∃ node, Prescribes phrase tokens node

/-- Every phrase by kinds has a tree. -/
theorem realised_of_derives {phrase : Phrase} {kinds : List Kind} (h : Derives phrase kinds)
    (tokens : List Token) (htokens : tokens.map Token.kind = kinds) : Realised phrase tokens := by
  induction h generalizing tokens with
  | done =>
    rw [List.map_eq_nil_iff.mp htokens]
    exact ⟨[], .done⟩
  | next _ _ statement rest =>
    obtain ⟨first, tail, rfl, hfirst, htail⟩ := List.map_eq_append_iff.mp htokens
    obtain ⟨hash, tail, rfl, hhash, htail⟩ := List.map_eq_cons_iff.mp htail
    obtain ⟨semicolon, tail, rfl, hsemicolon, htail⟩ := List.map_eq_cons_iff.mp htail
    obtain ⟨node, hnode⟩ := statement first hfirst
    obtain ⟨statements, hstatements⟩ := rest tail htail
    exact ⟨node :: statements, .next hnode hhash hsemicolon hstatements⟩
  | assign _ formula =>
    obtain ⟨name, tail, rfl, hname, htail⟩ := List.map_eq_cons_iff.mp htokens
    obtain ⟨operator, tail, rfl, hoperator, htail⟩ := List.map_eq_cons_iff.mp htail
    obtain ⟨value, hvalue⟩ := formula tail htail
    exact ⟨_, .assign hname hoperator hvalue⟩
  | defineAlias hshown =>
    obtain ⟨keyword, tail, rfl, hkeyword, htail⟩ := List.map_eq_cons_iff.mp htokens
    obtain ⟨key, tail, rfl, hkey, htail⟩ := List.map_eq_cons_iff.mp htail
    obtain ⟨shown, rfl, hkind⟩ := List.map_eq_singleton_iff.mp htail
    rcases hshown with rfl | rfl | rfl
    · exact ⟨_, .defineAlias hkeyword hkey (show Leaf.emoji ≠ .number by decide) hkind⟩
    · exact ⟨_, .defineAlias hkeyword hkey (show Leaf.text ≠ .number by decide) hkind⟩
    · exact ⟨_, .defineAlias hkeyword hkey (show Leaf.word ≠ .number by decide) hkind⟩
  | print hkeyword _ formula =>
    obtain ⟨operator, tail, rfl, hoperator, htail⟩ := List.map_eq_cons_iff.mp htokens
    obtain ⟨operand, hoperand⟩ := formula tail htail
    rcases hkeyword with rfl | rfl
    · exact ⟨_, .print hoperator hoperand⟩
    · exact ⟨_, .printAlias hoperator hoperand⟩
  | formula _ _ term operations =>
    obtain ⟨first, rest, rfl, hfirst, hrest⟩ := List.map_eq_append_iff.mp htokens
    obtain ⟨node, hnode⟩ := term first hfirst
    -- the first term is a formula that has begun
    exact operations rest hrest first node (.single hnode)
  | last =>
    intro before left hleft
    rw [List.map_eq_nil_iff.mp htokens, List.append_nil]
    exact ⟨left, hleft⟩
  | more hsign _ _ term operations =>
    -- the first operation joins what stands before it, and the others go on from there
    intro before left hleft
    obtain ⟨operator, tail, rfl, hoperator, htail⟩ := List.map_eq_cons_iff.mp htokens
    obtain ⟨right, rest, rfl, hright, hrest⟩ := List.map_eq_append_iff.mp htail
    obtain ⟨op, hop⟩ := exists_arithmetic_iff.mpr (hoperator ▸ hsign)
    obtain ⟨operand, hoperand⟩ := term right hright
    have hlonger := operations rest hrest _ _ (.chain hleft hop hoperand)
    simpa using hlonger
  | group _ formula =>
    obtain ⟨opening, tail, rfl, hopening, htail⟩ := List.map_eq_cons_iff.mp htokens
    obtain ⟨inner, tail, rfl, hinner, htail⟩ := List.map_eq_append_iff.mp htail
    obtain ⟨closing, rfl, hclosing⟩ := List.map_eq_singleton_iff.mp htail
    obtain ⟨node, hnode⟩ := formula inner hinner
    exact ⟨node, .group hopening hnode hclosing⟩
  | leaf hkind =>
    obtain ⟨token, rfl, htoken⟩ := List.map_eq_singleton_iff.mp htokens
    rcases hkind with rfl | rfl | rfl
    · exact ⟨_, .leaf (show Leaf.text ≠ .emoji by decide) htoken⟩
    · exact ⟨_, .leaf (show Leaf.number ≠ .emoji by decide) htoken⟩
    · exact ⟨_, .leaf (show Leaf.word ≠ .emoji by decide) htoken⟩

/-- A list of tokens is a program by its kinds exactly where the grammar prescribes a tree. -/
theorem derives_program_iff {tokens : List Token} :
    Derives .program (tokens.map Token.kind) ↔
      ∃ statements, Prescribes .program tokens (.program statements) := by
  constructor
  · intro h
    exact realised_of_derives h tokens rfl
  · rintro ⟨statements, h⟩
    exact derives_of_prescribes h

end Grammar

/-! ### Source order -/

namespace Node

mutual

/-- The tokens that a tree holds, in the order of the source. -/
def inOrder : Node → List Token
  | leaf _ token => [token]
  | formula _ operator left right => left.inOrder ++ operator :: right.inOrder
  | assign operator target value => target.inOrder ++ operator :: value.inOrder
  | defineAlias operator key shown => operator :: (key.inOrder ++ shown.inOrder)
  | print operator operand => operator :: operand.inOrder
  | printAlias operator operand => operator :: operand.inOrder
  | program statements => inOrderAll statements

/-- The tokens that some trees hold, one tree behind the other. -/
def inOrderAll : List Node → List Token
  | [] => []
  | statement :: rest => statement.inOrder ++ inOrderAll rest

end

end Node

namespace Grammar

/-- The kinds of token that only group and separate. -/
def isPunctuation : Kind → Bool
  | .openParen | .closeParen | .hash | .semicolon => true
  | _ => false

/-- The tokens other than parentheses and ends of statements. -/
def withoutPunctuation (tokens : List Token) : List Token :=
  tokens.filter fun token => !isPunctuation token.kind

@[simp] theorem withoutPunctuation_nil : withoutPunctuation [] = [] := rfl

theorem withoutPunctuation_append (tokens more : List Token) :
    withoutPunctuation (tokens ++ more) = withoutPunctuation tokens ++ withoutPunctuation more := by
  simp [withoutPunctuation]

theorem withoutPunctuation_cons (token : Token) (rest : List Token) :
    withoutPunctuation (token :: rest) =
      if isPunctuation token.kind then withoutPunctuation rest
      else token :: withoutPunctuation rest := by
  by_cases h : isPunctuation token.kind = true <;> simp [withoutPunctuation, h]

theorem isPunctuation_leafKind (form : Leaf) : isPunctuation form.kind = false := by
  cases form <;> rfl

theorem isPunctuation_arithmeticKind (op : Arithmetic) : isPunctuation op.kind = false := by
  cases op <;> rfl

/-- A prescribed tree, read in source order, is its tokens without the punctuation. -/
theorem inOrder_eq_of_prescribes {phrase : Phrase} {tokens : List Token} {node : Node}
    (h : Prescribes phrase tokens node) : node.inOrder = withoutPunctuation tokens := by
  induction h with
  | done => rfl
  | next _ hhash hsemicolon _ statement rest =>
    simp only [Node.inOrder, Node.inOrderAll] at rest ⊢
    simp [withoutPunctuation_append, withoutPunctuation_cons, hhash, hsemicolon, isPunctuation,
      statement, rest]
  | assign hname hoperator _ formula =>
    simp [Node.inOrder, withoutPunctuation_cons, hname, hoperator, isPunctuation, formula]
  | defineAlias hkeyword hkey _ hshown =>
    simp only [Node.inOrder, withoutPunctuation_cons, hkeyword, hkey, hshown,
      isPunctuation_leafKind]
    rfl
  | print hoperator _ formula =>
    simp [Node.inOrder, withoutPunctuation_cons, hoperator, isPunctuation, formula]
  | printAlias hoperator _ formula =>
    simp [Node.inOrder, withoutPunctuation_cons, hoperator, isPunctuation, formula]
  | single _ term => exact term
  | chain _ hoperator _ formula term =>
    simp [Node.inOrder, withoutPunctuation_append, withoutPunctuation_cons, hoperator,
      isPunctuation_arithmeticKind, formula, term]
  | group hopening _ hclosing formula =>
    simp [withoutPunctuation_append, withoutPunctuation_cons, hopening, hclosing, isPunctuation,
      formula]
  | leaf _ htoken =>
    simp [Node.inOrder, withoutPunctuation_cons, htoken, isPunctuation_leafKind]

/-! ### Limits -/

/-- The kinds of token with which a term begins. -/
def beginsTerm : Kind → Bool
  | .openParen | .text | .number | .word => true
  | _ => false

/-- The terms of a formula: every leaf is one, and so is every group beside those inside it. -/
def termCount (formula : List Kind) : Nat := formula.countP beginsTerm

/-- Nowhere in a formula are more than `limit` parentheses open. -/
def NestsWithin (limit : Nat) (formula : List Kind) : Prop :=
  ∀ read, read <+: formula → read.count .openParen ≤ limit + read.count .closeParen

/-- A formula keeps to the two limits. -/
structure WithinLimits (formula : List Kind) : Prop where
  terms : termCount formula ≤ maxTerms
  nesting : NestsWithin maxNesting formula

/-- The formula of a statement; none in an alias definition. -/
def formulaOf : List Kind → List Kind
  | .word :: .equals :: formula => formula
  | .print :: formula | .ejprint :: formula => formula
  | _ => []

/-- Every statement of a program keeps to the limits.  Only the end of a statement holds a
semicolon. -/
def Fits (program : List Kind) : Prop :=
  ∀ statement ∈ program.splitOn .semicolon, WithinLimits (formulaOf statement)

theorem NestsWithin.of_append {limit : Nat} {formula more : List Kind}
    (h : NestsWithin limit (formula ++ more)) : NestsWithin limit formula :=
  fun read hread => h read (hread.trans (List.prefix_append formula more))

/-- A formula with one more token keeps to the nesting if it did before and does at its end. -/
theorem nestsWithin_concat_iff {limit : Nat} {formula : List Kind} {kind : Kind} :
    NestsWithin limit (formula ++ [kind]) ↔ NestsWithin limit formula ∧
      (formula ++ [kind]).count .openParen ≤ limit + (formula ++ [kind]).count .closeParen := by
  constructor
  · intro h
    exact ⟨h.of_append, h _ (List.prefix_refl _)⟩
  · rintro ⟨hbefore, hend⟩ read hread
    rcases List.prefix_concat_iff.mp hread with rfl | hread
    · exact hend
    · exact hbefore read hread

/-- A group leaves one parenthesis fewer to be opened inside it. -/
theorem NestsWithin.group {limit : Nat} {inner : List Kind}
    (h : NestsWithin limit (.openParen :: (inner ++ [.closeParen]))) :
    ∃ inside, limit = inside + 1 ∧ NestsWithin inside inner := by
  have hopened : 1 ≤ limit := h [.openParen] (by simp)
  -- a piece of the inside is a piece of the group, with one parenthesis more
  refine ⟨limit - 1, by omega, ?_⟩
  intro read hread
  have hprefix : Kind.openParen :: read <+: .openParen :: (inner ++ [.closeParen]) := by
    rw [List.prefix_cons_inj]
    exact hread.trans (List.prefix_append inner _)
  have hinner := h _ hprefix
  simp only [List.count_cons_self, List.count_cons_of_ne (show Kind.openParen ≠ .closeParen by decide)]
    at hinner
  omega

/-- Behind a formula that closes what it opens, a term may nest as deep as the formula. -/
theorem NestsWithin.of_chain {limit : Nat} {before right : List Kind} {sign : Kind}
    (h : NestsWithin limit (before ++ sign :: right))
    (hbefore : before.count .openParen = before.count .closeParen)
    (hsign : sign = .plus ∨ sign = .minus) : NestsWithin limit right := by
  -- the pieces in question are those that hold all of `before`
  intro read hread
  have hprefix : before ++ sign :: read <+: before ++ sign :: right := by
    rw [List.prefix_append_right_inj, List.prefix_cons_inj]
    exact hread
  have hright := h _ hprefix
  rcases hsign with rfl | rfl <;> simp at hright <;> omega

theorem NestsWithin.mono {limit more : Nat} {formula : List Kind} (h : NestsWithin limit formula)
    (hle : limit ≤ more) : NestsWithin more formula := by
  intro read hread
  have hnesting := h read hread
  omega

/-- A group needs one parenthesis more than its inside. -/
theorem NestsWithin.enclose {limit : Nat} {inner : List Kind} (h : NestsWithin limit inner) :
    NestsWithin (limit + 1) (.openParen :: (inner ++ [.closeParen])) := by
  intro read hread
  rcases List.prefix_cons_iff.mp hread with rfl | ⟨tail, rfl, htail⟩
  · simp
  · rcases List.prefix_concat_iff.mp htail with rfl | htail
    · have hwhole := h inner (List.prefix_refl _)
      simp
      omega
    · have hinside := h tail htail
      simp
      omega

/-- A term may follow a formula that closes what it opens, if both keep to the nesting. -/
theorem NestsWithin.chain {limit : Nat} {before right : List Kind} {sign : Kind}
    (h : NestsWithin limit before) (hbefore : before.count .openParen = before.count .closeParen)
    (hsign : sign = .plus ∨ sign = .minus) (hright : NestsWithin limit right) :
    NestsWithin limit (before ++ sign :: right) := by
  intro read hread
  -- a piece of the whole ends within the formula, or holds all of it and a piece of the term
  rcases List.prefix_or_prefix_of_prefix hread (List.prefix_append before (sign :: right)) with
    hfirst | ⟨tail, rfl⟩
  · exact h read hfirst
  · rw [List.prefix_append_right_inj] at hread
    rcases List.prefix_cons_iff.mp hread with rfl | ⟨piece, rfl, hpiece⟩
    · simp [hbefore]
    · have hterm := hright piece hpiece
      rcases hsign with rfl | rfl <;> simp <;> omega

theorem termCount_append (formula more : List Kind) :
    termCount (formula ++ more) = termCount formula + termCount more := by
  simp [termCount]

theorem termCount_cons (kind : Kind) (rest : List Kind) :
    termCount (kind :: rest) = termCount rest + if beginsTerm kind then 1 else 0 := by
  simp [termCount, List.countP_cons]

theorem withinLimits_nil : WithinLimits [] where
  terms := Nat.zero_le _
  nesting read hread := by simp [List.prefix_nil.mp hread]

/-- The hash behind a formula counts for neither limit. -/
theorem withinLimits_hash_iff {formula : List Kind} :
    WithinLimits (formula ++ [.hash]) ↔ WithinLimits formula := by
  constructor
  · rintro ⟨hterms, hnesting⟩
    exact ⟨by simpa [termCount, beginsTerm] using hterms, hnesting.of_append⟩
  · rintro ⟨hterms, hnesting⟩
    refine ⟨by simpa [termCount, beginsTerm] using hterms, nestsWithin_concat_iff.mpr ⟨hnesting, ?_⟩⟩
    simpa using hnesting formula (List.prefix_refl _)

/-- Behind a statement, a hash is either behind its formula or behind none. -/
theorem formulaOf_hash (statement : List Kind) :
    formulaOf (statement ++ [.hash]) = formulaOf statement ∨
      formulaOf (statement ++ [.hash]) = formulaOf statement ++ [.hash] := by
  rcases statement with _ | ⟨first, _ | ⟨second, rest⟩⟩
  · exact .inl rfl
  · cases first <;> simp [formulaOf]
  · cases first
    case word => cases second <;> simp [formulaOf]
    all_goals simp [formulaOf]

theorem withinLimits_formulaOf_hash_iff {statement : List Kind} :
    WithinLimits (formulaOf (statement ++ [.hash])) ↔ WithinLimits (formulaOf statement) := by
  rcases formulaOf_hash statement with h | h <;> rw [h]
  exact withinLimits_hash_iff

theorem fits_nil : Fits [] := by
  intro statement hstatement
  obtain rfl : statement = [] := by simpa [List.splitOn_nil] using hstatement
  exact withinLimits_nil

/-- The limits of a statement and of the statements behind it have nothing to do with each
other. -/
theorem fits_next_iff {statement rest : List Kind} (hstatement : .semicolon ∉ statement) :
    Fits (statement ++ .hash :: .semicolon :: rest) ↔
      WithinLimits (formulaOf statement) ∧ Fits rest := by
  -- the first semicolon is the one behind the hash, so the program is split there
  have hfree : Kind.semicolon ∉ statement ++ [.hash] := by simpa using hstatement
  have hsplit : (statement ++ .hash :: .semicolon :: rest).splitOn .semicolon =
      (statement ++ [.hash]) :: rest.splitOn .semicolon := by
    simpa using List.splitOn_append_cons_self_of_not_mem hfree rest
  simp [Fits, hsplit, withinLimits_formulaOf_hash_iff]

/-- Short of a program, a phrase holds no semicolon. -/
theorem semicolon_notMem_of_derives {phrase : Phrase} {kinds : List Kind} (h : Derives phrase kinds)
    (hphrase : phrase ≠ .program) : Kind.semicolon ∉ kinds := by
  induction h with
  | done | next => exact absurd rfl hphrase
  | assign _ formula => simpa using formula (by decide)
  | defineAlias hshown => rcases hshown with rfl | rfl | rfl <;> simp
  | print hkeyword _ formula => rcases hkeyword with rfl | rfl <;> simpa using formula (by decide)
  | formula _ _ term operations =>
    simpa using ⟨term (by decide), operations (by decide)⟩
  | last => simp
  | more hsign _ _ term operations =>
    rcases hsign with rfl | rfl <;> simpa using ⟨term (by decide), operations (by decide)⟩
  | group _ formula => simpa using formula (by decide)
  | leaf hkind => rcases hkind with rfl | rfl | rfl <;> simp

/-- A phrase closes every parenthesis that it opens. -/
theorem count_parens_of_derives {phrase : Phrase} {kinds : List Kind} (h : Derives phrase kinds) :
    kinds.count .openParen = kinds.count .closeParen := by
  induction h with
  | done | last => rfl
  | next _ _ statement rest => simp [statement, rest]
  | assign _ formula => simpa using formula
  | defineAlias hshown => rcases hshown with rfl | rfl | rfl <;> rfl
  | print hkeyword _ formula => rcases hkeyword with rfl | rfl <;> simpa using formula
  | formula _ _ term operations => simp [term, operations]
  | more hsign _ _ term operations => rcases hsign with rfl | rfl <;> simp [term, operations]
  | group _ formula => simp [formula]
  | leaf hkind => rcases hkind with rfl | rfl | rfl <;> rfl

end Grammar

end EmojiScript
