/-!
# Outcomes of a call on a stateful thing

A call on a console or on a machine ends in one of two ways, with a value or
with an error, and in both cases the state that it leaves behind is known.
The third case has no state: the call has not returned, either because it
never will or because the fuel that was granted to it is used up.
-/

namespace Brainfuck

/-- What became of a call that works on a state `σ`, may fail with `ε` and
answers with `α`. -/
inductive Outcome (ε σ α : Type) where
  /-- The call answered. -/
  | done (answer : α) (state : σ)
  /-- The call failed; what it did before stays done. -/
  | failed (error : ε) (state : σ)
  /-- The call has not returned. -/
  | unfinished
  deriving DecidableEq, Repr

namespace Outcome

variable {ε ε' σ τ α β : Type}

/-- Go on with the answer and the state of a call that succeeded. -/
@[inline] def bind (o : Outcome ε σ α) (next : α → σ → Outcome ε σ β) : Outcome ε σ β :=
  match o with
  | .done a s => next a s
  | .failed e s => .failed e s
  | .unfinished => .unfinished

/-- Read a call on a part of the state as a call on the whole of it. -/
@[inline] def within (o : Outcome ε σ α) (error : ε → ε') (put : σ → τ) : Outcome ε' τ α :=
  match o with
  | .done a s => .done a (put s)
  | .failed e s => .failed (error e) (put s)
  | .unfinished => .unfinished

@[simp] theorem bind_done (a : α) (s : σ) (next : α → σ → Outcome ε σ β) :
    (done a s : Outcome ε σ α).bind next = next a s := rfl

@[simp] theorem bind_failed (e : ε) (s : σ) (next : α → σ → Outcome ε σ β) :
    (failed e s : Outcome ε σ α).bind next = failed e s := rfl

@[simp] theorem bind_unfinished (next : α → σ → Outcome ε σ β) :
    (unfinished : Outcome ε σ α).bind next = unfinished := rfl

/-- Whether the call has returned. -/
def returned : Outcome ε σ α → Bool
  | .unfinished => false
  | _ => true

/-- The state a call that has returned leaves behind. -/
def state? : Outcome ε σ α → Option σ
  | .done _ s => some s
  | .failed _ s => some s
  | .unfinished => none

/-- A call in two parts that succeeded did so twice. -/
theorem of_bind_eq_done {o : Outcome ε σ α} {next : α → σ → Outcome ε σ β} {b : β} {t : σ}
    (h : o.bind next = .done b t) : ∃ a s, o = .done a s ∧ next a s = .done b t := by
  cases o with
  | done a s => exact ⟨a, s, rfl, h⟩
  | failed e s => cases h
  | unfinished => cases h

/-- A call in two parts that failed did so in one of them. -/
theorem of_bind_eq_failed {o : Outcome ε σ α} {next : α → σ → Outcome ε σ β} {e : ε} {t : σ}
    (h : o.bind next = .failed e t) :
    o = .failed e t ∨ ∃ a s, o = .done a s ∧ next a s = .failed e t := by
  cases o with
  | done a s => exact .inr ⟨a, s, rfl, h⟩
  | failed e' s =>
    cases h
    exact .inl rfl
  | unfinished => cases h

/-- What a call in two parts leaves behind is from the second part, unless the
first one failed. -/
theorem of_state?_bind {o : Outcome ε σ α} {next : α → σ → Outcome ε σ β} {t : σ}
    (h : (o.bind next).state? = some t) :
    (∃ e, o = .failed e t) ∨ ∃ a s, o = .done a s ∧ (next a s).state? = some t := by
  cases o with
  | done a s => exact .inr ⟨a, s, rfl, h⟩
  | failed e s =>
    cases h
    exact .inl ⟨e, rfl⟩
  | unfinished => cases h

end Outcome

end Brainfuck
