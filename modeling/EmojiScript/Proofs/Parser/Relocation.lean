import EmojiScript.Parser.Mode
import EmojiScript.Proofs.Relocation

namespace EmojiScript

/-!
# Reading tokens that stand elsewhere

A reading looks at the kinds of tokens alone.  With tokens of the same kinds and texts elsewhere it
goes the same way and stops in front of the same token, and all that it has read holds these tokens
in place of the others.

* `Mode.relocate`, `Reading.relocate` — what was read, elsewhere.
* `Mode.next_relocate` — one token elsewhere.
* `Reading.run_relocate` — a whole reading.
-/

namespace Reading

variable {base : Nat} {done : List Node} {token : Token}

/-- A semicolon behind `#` ends the statement. -/
theorem step_semicolon {whole : Node} (h : token.kind = .semicolon) :
    step base ⟨done, .semicolon whole⟩ token = .ok ⟨whole :: done, .statement⟩ := by
  rw [step]
  split
  next hmode _ => cases hmode; rfl
  next hother => exact absurd h (hother whole rfl)

/-- Any other token goes on within the statement. -/
theorem step_of_not_ends {mode : Mode}
    (h : ¬ ∃ whole, mode = .semicolon whole ∧ token.kind = .semicolon) :
    step base ⟨done, mode⟩ token = (mode.next base token).map fun mode => ⟨done, mode⟩ := by
  rw [step]
  split
  next whole hmode hkind => exact absurd ⟨whole, hmode, hkind⟩ h
  next => rfl

end Reading

variable (move : Relocation)

/-! ### What was read, elsewhere -/

def Opening.relocate : Opening → Opening
  | assign name operator => assign (name.relocate move) (operator.relocate move)
  | print operator => print (operator.relocate move)
  | printAlias operator => printAlias (operator.relocate move)

def Pending.relocate (pending : Pending) : Pending :=
  { pending with
    left := pending.left.relocate move
    operator := pending.operator.relocate move }

def Unfinished.relocate (formula : Unfinished) : Unfinished :=
  { formula with
    opening := formula.opening.relocate move
    groups := formula.groups.map (Option.map (Pending.relocate move)) }

def Mode.relocate : Mode → Mode
  | statement => statement
  | equals name => equals (name.relocate move)
  | aliasName keyword => aliasName (keyword.relocate move)
  | aliasValue keyword key => aliasValue (keyword.relocate move) (key.relocate move)
  | operand formula pending? =>
    operand (formula.relocate move) (pending?.map (Pending.relocate move))
  | operator formula left => operator (formula.relocate move) (left.relocate move)
  | hash whole => hash (whole.relocate move)
  | semicolon whole => semicolon (whole.relocate move)

def Reading.relocate (reading : Reading) : Reading where
  done := reading.done.map (Node.relocate move)
  mode := reading.mode.relocate move

def Stop.relocate (stop : Stop) : Stop where
  reading := stop.reading.relocate move
  rest := stop.rest.map (Token.relocate move)
  failure? := stop.failure?

/-! ### One step -/

theorem Pending.complete_relocate (pending? : Option Pending) (operand : Node) :
    Pending.complete (pending?.map (Pending.relocate move)) (operand.relocate move) =
      (Pending.complete pending? operand).relocate move := by
  cases pending? with
  | none => rfl
  | some pending => simp [Pending.complete, Pending.relocate, Node.relocate]

theorem Opening.close_relocate (opening : Opening) (formula : Node) :
    (opening.relocate move).close (formula.relocate move) =
      (opening.close formula).relocate move := by
  cases opening <;> simp [Opening.close, Opening.relocate, Node.relocate]

namespace Mode

@[simp] theorem expectation_relocate (mode : Mode) :
    (mode.relocate move).expectation = mode.expectation := by
  cases mode with
  | operator formula left =>
    cases hgroups : formula.groups <;> simp [relocate, Unfinished.relocate, expectation, hgroups]
  | _ => rfl

theorem term_relocate (base : Nat) (formula : Unfinished) (pending? : Option Pending)
    (token : Token) :
    term base (formula.relocate move) (pending?.map (Pending.relocate move))
        (token.relocate move) =
      (term base formula pending? token).map (relocate move) := by
  simp only [term, Token.kind_relocate]
  split
  · simp only [Unfinished.relocate, List.length_map]
    split <;> rfl
  · split
    next form _ =>
      show Except.ok (operator _ (Pending.complete _ ((Node.leaf form token).relocate move))) = _
      rw [Pending.complete_relocate]
      rfl
    next => rfl

theorem afterTerm_relocate (formula : Unfinished) (left : Node) (token : Token) :
    afterTerm (formula.relocate move) (left.relocate move) (token.relocate move) =
      (afterTerm formula left token).map (relocate move) := by
  simp only [afterTerm, Token.kind_relocate]
  split
  next => rfl
  next =>
    cases hgroups : formula.groups with
    | nil =>
      simp only [Unfinished.relocate, hgroups, List.map_nil]
      split
      · rw [Opening.close_relocate]
        rfl
      · rfl
    | cons pending? groups =>
      simp only [Unfinished.relocate, hgroups, List.map_cons]
      split
      · rw [Pending.complete_relocate]
        rfl
      · rfl

/-- **One step.** A token elsewhere leads to the same mode with its tokens elsewhere. -/
theorem next_relocate (base : Nat) (mode : Mode) (token : Token) :
    (mode.relocate move).next base (token.relocate move) =
      (mode.next base token).map (relocate move) := by
  cases mode with
  | statement | aliasValue =>
    simp only [next, relocate, Token.kind_relocate]
    split <;> rfl
  | operand formula pending? =>
    simp only [next, apply_ite (Except.map (relocate move)), ← term_relocate]
    rfl
  | operator formula left => exact afterTerm_relocate move formula left token
  | semicolon => rfl
  | _ =>
    simp only [next, relocate, Token.kind_relocate, apply_ite (Except.map (relocate move))]
    rfl

end Mode

/-! ### Whole readings -/

namespace Reading

theorem step_relocate (base : Nat) (reading : Reading) (token : Token) :
    (reading.relocate move).step base (token.relocate move) =
      (reading.step base token).map (relocate move) := by
  obtain ⟨done, mode⟩ := reading
  by_cases hends : ∃ whole, mode = .semicolon whole ∧ token.kind = .semicolon
  · obtain ⟨whole, rfl, hkind⟩ := hends
    rw [step_semicolon hkind]
    exact step_semicolon hkind
  · have hends' : ¬ ∃ whole, mode.relocate move = .semicolon whole ∧
        (token.relocate move).kind = .semicolon := by
      rintro ⟨_, hmode, hkind⟩
      cases mode with
      | semicolon whole => exact hends ⟨whole, rfl, hkind⟩
      | _ => cases hmode
    rw [step_of_not_ends hends, relocate, step_of_not_ends hends', Mode.next_relocate]
    cases mode.next base token <;> rfl

theorem missing?_relocate (reading : Reading) :
    (reading.relocate move).missing? = reading.missing? := by
  obtain ⟨done, mode⟩ := reading
  have hexpected := congrArg some (Mode.expectation_relocate move mode)
  cases mode with
  | statement => rfl
  | _ => exact hexpected

/-- **Tokens elsewhere** are read as they are anywhere. -/
theorem run_relocate (base : Nat) (reading : Reading) (tokens : List Token) :
    (reading.relocate move).run base (tokens.map (Token.relocate move)) =
      (reading.run base tokens).relocate move := by
  induction tokens generalizing reading with
  | nil =>
    rw [List.map_nil, run, run, missing?_relocate]
    rfl
  | cons token rest ih =>
    rw [List.map_cons, run, run, step_relocate]
    cases reading.step base token with
    | ok reading => exact ih reading
    | error => rfl

end Reading

end EmojiScript
