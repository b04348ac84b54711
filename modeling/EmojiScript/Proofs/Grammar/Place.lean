import EmojiScript.Proofs.Grammar

namespace EmojiScript

namespace Grammar

/-!
# Places in a program

Without the limits, all that the grammar has to know of the kinds read so far is a place: what has
been read of the current statement and, inside a formula, how many groups are open.  A kind leads
from a place to at most one other.  A list of kinds is a program exactly where it leads from the
place between statements back to it, and it begins a program exactly where it leads anywhere, as
from every place some kinds lead back.

* `Place.next`, `Place.walk` — where a kind and a list of kinds lead.
* `derives_program_iff_walk` — programs are the walks from between statements to there.
* `viable_iff` — beginnings of programs are the walks from between statements.
* `Place.depth_of_walk` — a walk counts the parentheses that are open.
-/

/-- What has been read of the current statement, by its kinds. -/
inductive Place where
  | statement
  | equals
  | aliasName
  | aliasValue
  /-- A term has to begin. -/
  | operand (depth : Nat)
  /-- A term has ended. -/
  | operator (depth : Nat)
  | hash
  | semicolon
deriving DecidableEq, Repr, Inhabited

namespace Place

/-- The place behind one more kind, if the grammar allows it there. -/
def next : Place → Kind → Option Place
  | statement, .word => some equals
  | statement, .ejkey => some aliasName
  | statement, .print | statement, .ejprint => some (operand 0)
  | equals, .equals => some (operand 0)
  | aliasName, .word => some aliasValue
  | aliasValue, .emoji | aliasValue, .text | aliasValue, .word => some hash
  | operand depth, .openParen => some (operand (depth + 1))
  | operand depth, .text | operand depth, .number | operand depth, .word => some (operator depth)
  | operator depth, .plus | operator depth, .minus => some (operand depth)
  | operator (depth + 1), .closeParen => some (operator depth)
  | operator 0, .hash | hash, .hash => some semicolon
  | semicolon, .semicolon => some statement
  | _, _ => none

/-- The place behind some kinds, if the grammar allows them there. -/
def walk (place : Place) (kinds : List Kind) : Option Place := kinds.foldlM next place

/-- How many groups are open. -/
def depth : Place → Nat
  | operand depth | operator depth => depth
  | _ => 0

@[simp] theorem walk_nil (place : Place) : place.walk [] = some place := rfl

theorem walk_cons (place : Place) (kind : Kind) (rest : List Kind) :
    place.walk (kind :: rest) = (place.next kind).bind fun place => place.walk rest := rfl

theorem walk_append (place : Place) (kinds more : List Kind) :
    place.walk (kinds ++ more) = (place.walk kinds).bind fun place => place.walk more :=
  List.foldlM_append

theorem walk_cons_of_next {place place' : Place} {kind : Kind} (h : place.next kind = some place')
    (rest : List Kind) : place.walk (kind :: rest) = place'.walk rest := by
  rw [walk_cons, h, Option.bind_some]

theorem walk_append_of_walk {place place' : Place} {kinds : List Kind}
    (h : place.walk kinds = some place') (more : List Kind) :
    place.walk (kinds ++ more) = place'.walk more := by
  rw [walk_append, h, Option.bind_some]

/-! ### Programs can be walked -/

/-- Where a phrase of the grammar leads. -/
def Leads : Phrase → List Kind → Prop
  | .term, kinds | .formula, kinds => ∀ depth, (operand depth).walk kinds = some (operator depth)
  | .operations, kinds => ∀ depth, (operator depth).walk kinds = some (operator depth)
  | .statement, kinds => ∃ place, statement.walk kinds = some place ∧
      place.next .hash = some semicolon
  | .program, kinds => statement.walk kinds = some statement

theorem leads_of_derives {phrase : Phrase} {kinds : List Kind} (h : Derives phrase kinds) :
    Leads phrase kinds := by
  induction h with
  | done => rfl
  | next _ _ hstatement hrest =>
    obtain ⟨place, hwalk, hhash⟩ := hstatement
    show statement.walk _ = _
    rw [walk_append_of_walk hwalk, walk_cons_of_next hhash]
    exact hrest
  | assign _ hformula => exact ⟨operator 0, hformula 0, rfl⟩
  | defineAlias hshown => rcases hshown with rfl | rfl | rfl <;> exact ⟨hash, rfl, rfl⟩
  | print hkeyword _ hformula =>
    rcases hkeyword with rfl | rfl <;> exact ⟨operator 0, hformula 0, rfl⟩
  | formula _ _ hterm hoperations =>
    intro depth
    rw [walk_append_of_walk (hterm depth), hoperations depth]
  | last => exact fun _ => rfl
  | @more sign _ _ hsign _ _ hterm hoperations =>
    intro depth
    have hnext : (operator depth).next sign = some (operand depth) := by
      rcases hsign with rfl | rfl <;> cases depth <;> rfl
    rw [walk_cons_of_next hnext, walk_append_of_walk (hterm depth), hoperations depth]
  | group _ hformula =>
    intro depth
    have hnext : (operand depth).next .openParen = some (operand (depth + 1)) := rfl
    rw [walk_cons_of_next hnext, walk_append_of_walk (hformula (depth + 1))]
    rfl
  | leaf hkind =>
    intro depth
    rcases hkind with rfl | rfl | rfl <;> rfl

/-! ### Walks are programs -/

/-- What may stand behind a term in this many groups, to the end of a program. -/
def Closes : Nat → List Kind → Prop
  | 0, more => ∃ operations rest, Derives .operations operations ∧ Derives .program rest ∧
      more = operations ++ .hash :: .semicolon :: rest
  | depth + 1, more => ∃ operations rest, Derives .operations operations ∧ Closes depth rest ∧
      more = operations ++ .closeParen :: rest

/-- What may stand behind a place, to the end of a program. -/
def Completes : Place → List Kind → Prop
  | statement, more => Derives .program more
  | equals, more => ∃ formula rest, Derives .formula formula ∧ Derives .program rest ∧
      more = .equals :: (formula ++ .hash :: .semicolon :: rest)
  | aliasName, more => ∃ shown rest, (shown = .emoji ∨ shown = .text ∨ shown = .word) ∧
      Derives .program rest ∧ more = .word :: shown :: .hash :: .semicolon :: rest
  | aliasValue, more => ∃ shown rest, (shown = .emoji ∨ shown = .text ∨ shown = .word) ∧
      Derives .program rest ∧ more = shown :: .hash :: .semicolon :: rest
  | operand depth, more => ∃ term rest, Derives .term term ∧ Closes depth rest ∧
      more = term ++ rest
  | operator depth, more => Closes depth more
  | hash, more => ∃ rest, Derives .program rest ∧ more = .hash :: .semicolon :: rest
  | semicolon, more => ∃ rest, Derives .program rest ∧ more = .semicolon :: rest

/-- One more operation may stand behind a term. -/
theorem Closes.operation {depth : Nat} {sign : Kind} {term more : List Kind}
    (h : Closes depth more) (hsign : sign = .plus ∨ sign = .minus) (hterm : Derives .term term) :
    Closes depth (sign :: (term ++ more)) := by
  cases depth with
  | zero =>
    obtain ⟨operations, rest, hoperations, hrest, rfl⟩ := h
    exact ⟨_, rest, .more hsign hterm hoperations, hrest, by simp⟩
  | succ depth =>
    obtain ⟨operations, rest, hoperations, hrest, rfl⟩ := h
    exact ⟨_, rest, .more hsign hterm hoperations, hrest, by simp⟩

/-- What completes a formula at its beginning holds the formula. -/
theorem Completes.exists_formula {more : List Kind} (h : (operand 0).Completes more) :
    ∃ formula rest, Derives .formula formula ∧ Derives .program rest ∧
      more = formula ++ .hash :: .semicolon :: rest := by
  obtain ⟨term, _, hterm, ⟨operations, rest, hoperations, hrest, rfl⟩, rfl⟩ := h
  exact ⟨_, rest, .formula hterm hoperations, hrest, by simp⟩

/-- What completes the inside of a group holds the group but for its parenthesis. -/
theorem Completes.group {depth : Nat} {more : List Kind} (h : (operand (depth + 1)).Completes more) :
    (operand depth).Completes (.openParen :: more) := by
  obtain ⟨term, _, hterm, ⟨operations, rest, hoperations, hrest, rfl⟩, rfl⟩ := h
  exact ⟨_, rest, .group (.formula hterm hoperations), hrest, by simp⟩

/-- What completes a place, behind a kind that leads there, completes the place before. -/
theorem Completes.cons {place place' : Place} {kind : Kind} {more : List Kind}
    (hmore : place'.Completes more) (h : place.next kind = some place') :
    place.Completes (kind :: more) := by
  cases place with
  | statement =>
    cases kind
    case word =>
      cases h
      obtain ⟨formula, rest, hformula, hrest, rfl⟩ := hmore
      exact .next (.assign hformula) hrest
    case ejkey =>
      cases h
      obtain ⟨shown, rest, hshown, hrest, rfl⟩ := hmore
      exact .next (.defineAlias hshown) hrest
    case print =>
      cases h
      obtain ⟨formula, rest, hformula, hrest, rfl⟩ := hmore.exists_formula
      exact .next (.print (.inl rfl) hformula) hrest
    case ejprint =>
      cases h
      obtain ⟨formula, rest, hformula, hrest, rfl⟩ := hmore.exists_formula
      exact .next (.print (.inr rfl) hformula) hrest
    all_goals cases h
  | equals =>
    cases kind
    case equals =>
      cases h
      obtain ⟨formula, rest, hformula, hrest, rfl⟩ := hmore.exists_formula
      exact ⟨formula, rest, hformula, hrest, rfl⟩
    all_goals cases h
  | aliasName =>
    cases kind
    case word =>
      cases h
      obtain ⟨shown, rest, hshown, hrest, rfl⟩ := hmore
      exact ⟨shown, rest, hshown, hrest, rfl⟩
    all_goals cases h
  | aliasValue =>
    cases kind
    case emoji | text | word =>
      cases h
      obtain ⟨rest, hrest, rfl⟩ := hmore
      exact ⟨_, rest, by simp, hrest, rfl⟩
    all_goals cases h
  | operand depth =>
    cases kind
    case openParen =>
      cases h
      exact hmore.group
    case text | number | word =>
      cases h
      exact ⟨_, more, .leaf (by simp), hmore, rfl⟩
    all_goals cases h
  | operator depth =>
    cases kind
    case plus | minus =>
      obtain rfl : place' = operand depth := by cases depth <;> exact (Option.some.inj h).symm
      obtain ⟨term, rest, hterm, hrest, rfl⟩ := hmore
      exact hrest.operation (by simp) hterm
    case closeParen =>
      cases depth with
      | zero => cases h
      | succ depth =>
        cases h
        exact ⟨[], more, .last, hmore, rfl⟩
    case hash =>
      cases depth with
      | zero =>
        cases h
        obtain ⟨rest, hrest, rfl⟩ := hmore
        exact ⟨[], rest, .last, hrest, rfl⟩
      | succ => cases h
    all_goals cases depth <;> cases h
  | hash =>
    cases kind
    case hash =>
      cases h
      obtain ⟨rest, hrest, rfl⟩ := hmore
      exact ⟨rest, hrest, rfl⟩
    all_goals cases h
  | semicolon =>
    cases kind
    case semicolon =>
      cases h
      exact ⟨more, hmore, rfl⟩
    all_goals cases h

/-- Kinds that lead back between statements complete the place from which they lead. -/
theorem completes_of_walk {place : Place} {kinds : List Kind}
    (h : place.walk kinds = some statement) : place.Completes kinds := by
  induction kinds generalizing place with
  | nil =>
    obtain rfl := Option.some.inj h
    exact .done
  | cons kind rest ih =>
    obtain ⟨place', hnext, hrest⟩ := Option.bind_eq_some_iff.mp h
    exact (ih hrest).cons hnext

/-- From every place some kinds lead back between statements. -/
theorem exists_walk (place : Place) : ∃ more, place.walk more = some statement := by
  have hoperator : ∀ depth, ∃ more, (operator depth).walk more = some statement := by
    intro depth
    induction depth with
    | zero => exact ⟨[.hash, .semicolon], rfl⟩
    | succ depth ih =>
      obtain ⟨more, hmore⟩ := ih
      exact ⟨.closeParen :: more, hmore⟩
  have hoperand : ∀ depth, ∃ more, (operand depth).walk more = some statement := by
    intro depth
    obtain ⟨more, hmore⟩ := hoperator depth
    exact ⟨.word :: more, hmore⟩
  cases place with
  | statement => exact ⟨[], rfl⟩
  | equals =>
    obtain ⟨more, hmore⟩ := hoperand 0
    exact ⟨.equals :: more, hmore⟩
  | aliasName => exact ⟨[.word, .word, .hash, .semicolon], rfl⟩
  | aliasValue => exact ⟨[.word, .hash, .semicolon], rfl⟩
  | operand depth => exact hoperand depth
  | operator depth => exact hoperator depth
  | hash => exact ⟨[.hash, .semicolon], rfl⟩
  | semicolon => exact ⟨[.semicolon], rfl⟩

/-! ### Open groups -/

theorem depth_of_next {place place' : Place} {kind : Kind} (h : place.next kind = some place') :
    place'.depth + [kind].count .closeParen = place.depth + [kind].count .openParen := by
  unfold next at h
  split at h <;> cases h <;> rfl

/-- The groups that are open behind a walk are those before it and those that it opens and does not
close. -/
theorem depth_of_walk {place place' : Place} {kinds : List Kind}
    (h : place.walk kinds = some place') :
    place'.depth + kinds.count .closeParen = place.depth + kinds.count .openParen := by
  induction kinds generalizing place with
  | nil =>
    obtain rfl := Option.some.inj h
    rfl
  | cons kind rest ih =>
    obtain ⟨between, hnext, hrest⟩ := Option.bind_eq_some_iff.mp h
    have hfirst := depth_of_next hnext
    have hlast := ih hrest
    rw [← List.singleton_append, List.count_append, List.count_append]
    omega

end Place

/-! ### Programs and their beginnings -/

/-- **Programs are walks** from the place between statements to itself. -/
theorem derives_program_iff_walk {kinds : List Kind} :
    Derives .program kinds ↔ Place.statement.walk kinds = some .statement :=
  ⟨Place.leads_of_derives, Place.completes_of_walk⟩

/-- A list of kinds begins a program. -/
def Viable (kinds : List Kind) : Prop := ∃ more, Derives .program (kinds ++ more)

/-- **Beginnings of programs are walks** from the place between statements. -/
theorem viable_iff {kinds : List Kind} :
    Viable kinds ↔ ∃ place, Place.statement.walk kinds = some place := by
  constructor
  · rintro ⟨more, h⟩
    obtain ⟨place, hwalk, _⟩ := Option.bind_eq_some_iff.mp
      ((Place.walk_append _ _ _).symm.trans (derives_program_iff_walk.mp h))
    exact ⟨place, hwalk⟩
  · rintro ⟨place, hwalk⟩
    obtain ⟨more, hmore⟩ := place.exists_walk
    exact ⟨more, derives_program_iff_walk.mpr ((Place.walk_append_of_walk hwalk more).trans hmore)⟩

instance (kinds : List Kind) : Decidable (Derives .program kinds) :=
  decidable_of_iff _ derives_program_iff_walk.symm

instance (kinds : List Kind) : Decidable (Viable kinds) :=
  decidable_of_iff (Place.statement.walk kinds).isSome
    (by rw [viable_iff, Option.isSome_iff_exists])

example : Viable [.print, .openParen] ∧ ¬ Viable [.print, .closeParen] := by decide

/-- A kind goes on with a beginning of a program where it leads on. -/
theorem viable_concat_iff {kinds : List Kind} {place : Place} {kind : Kind}
    (h : Place.statement.walk kinds = some place) :
    Viable (kinds ++ [kind]) ↔ ∃ place', place.next kind = some place' := by
  rw [viable_iff, Place.walk_append_of_walk h]
  simp [Place.walk_cons]

end Grammar

end EmojiScript
