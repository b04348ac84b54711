import EmojiScript.Evaluation.Machine

namespace EmojiScript

/-!
# How much effect a fault leaves

Three properties of evaluations.  Any effects that an `Atomic` evaluation has come behind
everything that can fail, or are what the sink kept of a text that it refused.

* `Eval.runOn_bind_cases` — what a sequence of two evaluations does.
* `Eval.Effectless` — no effect at all.
* `Eval.Writes` — effects on the sink alone, which alone may fail.
* `Eval.Atomic` — no effect where the evaluation fails.
* `Eval.Effectless.bind_atomic` — effects may come last.
-/

variable {σ α β : Type}

namespace Eval

/-- A sequence goes on where its first part succeeds, and otherwise fails as that does. -/
theorem runOn_bind_cases (eval : Eval σ α) (next : α → Eval σ β) (machine : Machine σ) :
    (∃ a between, eval.runOn machine = (.ok a, between) ∧
      (eval >>= next).runOn machine = (next a).runOn between) ∨
    ∃ fault after, eval.runOn machine = (.error fault, after) ∧
      (eval >>= next).runOn machine = (.error fault, after) := by
  rw [runOn_bind]
  rcases hrun : eval.runOn machine with ⟨fault | a, after⟩
  · exact .inr ⟨fault, after, rfl, rfl⟩
  · exact .inl ⟨a, after, rfl, rfl⟩

theorem runOn_map (f : α → β) (eval : Eval σ α) (machine : Machine σ) :
    (f <$> eval).runOn machine = ((eval.runOn machine).1.map f, (eval.runOn machine).2) := by
  rw [map_eq_pure_bind]
  rcases runOn_bind_cases eval (fun a => pure (f a)) machine with
    ⟨a, between, hrun, hbind⟩ | ⟨fault, after, hrun, hbind⟩
  · rw [hbind, hrun]
    rfl
  · rw [hbind, hrun]
    rfl

/-! ### Evaluations without effects -/

/-- An evaluation leaves every machine as it finds it. -/
def Effectless (eval : Eval σ α) : Prop := ∀ machine, (eval.runOn machine).2 = machine

theorem Effectless.eq_of_runOn {eval : Eval σ α} {result : Except Fault α}
    {machine after : Machine σ} (h : eval.Effectless)
    (hrun : eval.runOn machine = (result, after)) : after = machine := by
  have hsame := h machine
  rw [hrun] at hsame
  exact hsame

theorem effectless_pure (a : α) : Effectless (pure a : Eval σ α) := fun _ => rfl

theorem effectless_shown (key : String) : Effectless (shown key : Eval σ String) := fun _ => rfl

theorem Effectless.map {eval : Eval σ α} (h : eval.Effectless) (f : α → β) :
    (f <$> eval).Effectless := by
  intro machine
  rw [runOn_map]
  exact h machine

/-! ### Evaluations that write -/

/-- An evaluation works on the sink alone, and only the sink can stop it. -/
def Writes (eval : Eval σ α) : Prop := ∀ machine,
  (eval.runOn machine).2.context = machine.context ∧
    ∀ fault, (eval.runOn machine).1 = .error fault → ∃ reason, fault = .sink reason

theorem writes_onSink (ask : σ → Except String Unit × σ) : Writes (onSink ask) := by
  intro machine
  refine ⟨rfl, ?_⟩
  intro fault hfault
  rw [runOn_onSink] at hfault
  dsimp only at hfault
  cases hask : (ask machine.sink).1 with
  | ok =>
    rw [hask] at hfault
    cases hfault
  | error reason =>
    rw [hask] at hfault
    exact ⟨reason, (Except.error.inj hfault).symm⟩

theorem writes_pure (a : α) : Writes (pure a : Eval σ α) := by
  intro machine
  refine ⟨rfl, ?_⟩
  intro fault hfault
  cases hfault

theorem Writes.bind {eval : Eval σ α} {next : α → Eval σ β} (h : eval.Writes)
    (hnext : ∀ a, (next a).Writes) : (eval >>= next).Writes := by
  intro machine
  obtain ⟨hcontext, hsink⟩ := h machine
  rcases runOn_bind_cases eval next machine with
    ⟨a, between, hrun, hbind⟩ | ⟨fault, after, hrun, hbind⟩
  · obtain ⟨hcontext', hsink'⟩ := hnext a between
    rw [hrun] at hcontext
    rw [hbind]
    exact ⟨hcontext'.trans hcontext, hsink'⟩
  · rw [hrun] at hcontext hsink
    rw [hbind]
    refine ⟨hcontext, ?_⟩
    intro fault' hfault
    obtain rfl := Except.error.inj hfault
    exact hsink fault rfl

theorem writes_writeLine [Sink σ] (text : String) : Writes (writeLine text : Eval σ Unit) :=
  (writes_onSink _).bind fun _ => writes_onSink _

/-! ### Evaluations that take effect only where they succeed -/

/-- A fault leaves the context as it was, and the sink too where the fault is not its own. -/
def Atomic (eval : Eval σ α) : Prop := ∀ machine fault after,
  eval.runOn machine = (.error fault, after) → after.context = machine.context ∧
    ((∀ reason, fault ≠ .sink reason) → after.sink = machine.sink)

theorem Writes.atomic {eval : Eval σ α} (h : eval.Writes) : eval.Atomic := by
  intro machine fault after hrun
  obtain ⟨hcontext, hsink⟩ := h machine
  rw [hrun] at hcontext hsink
  refine ⟨hcontext, ?_⟩
  intro hother
  obtain ⟨reason, hreason⟩ := hsink fault rfl
  exact absurd hreason (hother reason)

/-- An evaluation that always succeeds leaves nothing behind a fault. -/
theorem atomic_of_ok {eval : Eval σ α} (h : ∀ machine, ∃ a, (eval.runOn machine).1 = .ok a) :
    eval.Atomic := by
  intro machine fault after hrun
  obtain ⟨a, hok⟩ := h machine
  rw [hrun] at hok
  cases hok

/-- Effects may come last. -/
theorem Effectless.bind_atomic {eval : Eval σ α} {next : α → Eval σ β} (h : eval.Effectless)
    (hnext : ∀ a, (next a).Atomic) : (eval >>= next).Atomic := by
  intro machine fault after hbound
  rcases runOn_bind_cases eval next machine with
    ⟨a, between, hrun, hbind⟩ | ⟨fault', after', hrun, hbind⟩
  · -- the first part leaves the machine to the second as it was
    obtain rfl := h.eq_of_runOn hrun
    rw [hbind] at hbound
    exact hnext a between fault after hbound
  · rw [hbind] at hbound
    obtain ⟨_, rfl⟩ := Prod.mk.inj hbound
    obtain rfl := h.eq_of_runOn hrun
    exact ⟨rfl, fun _ => rfl⟩

theorem Atomic.map {eval : Eval σ α} (h : eval.Atomic) (f : α → β) : (f <$> eval).Atomic := by
  intro machine fault after hmapped
  rw [runOn_map] at hmapped
  obtain ⟨hresult, hafter⟩ := Prod.mk.inj hmapped
  rcases hrun : eval.runOn machine with ⟨fault' | a, after'⟩
  · rw [hrun] at hresult hafter
    obtain rfl : fault' = fault := Except.error.inj hresult
    obtain rfl : after' = after := hafter
    exact h machine fault' after' hrun
  · rw [hrun] at hresult
    cases hresult

end Eval

end EmojiScript
