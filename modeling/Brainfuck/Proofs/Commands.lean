import Brainfuck.Session

/-!
# Commands in a row

A session is a machine that is given commands. This module has what all
sessions share, whatever the array and the console are:

* **where commands lead** — each of them returns, with success or without, and
  the next one goes on from what it left behind (`Machine.Leads`);
* **what a command does** — what it leaves behind is left by its operations, or by
  the flush behind them (`Command.of_perform_state?`);
* **what commands keep** — a property that every step keeps, and that has
  nothing to do with the console, is kept by commands in a row (`Kept.leads`);
* **how a command fails** — at one of its steps, or at the flush behind all of
  them (`Command.of_perform_eq_failed`).
-/

namespace Brainfuck

namespace Machine

variable {code : Code} {m u m' : Machine}

/-- The commands lead from one machine to another. All of them return; those
that fail leave a machine behind like the others. -/
inductive Leads (code : Code) : Machine → List Command → Machine → Prop
  | nil (m : Machine) : Leads code m [] m
  | cons {m u m' : Machine} {cmd : Command} {cmds : List Command} :
      (cmd.perform code m).state? = some u → Leads code u cmds m' →
      Leads code m (cmd :: cmds) m'

/-! ## The flush at the end -/

theorem returned_flush (m : Machine) : m.flush.returned = true := by
  unfold flush Console.flush
  split <;> rfl

/-- A flush changes nothing but the console. -/
theorem exists_console_of_flush (h : m.flush.state? = some u) :
    ∃ c, u = { m with console := c } := by
  unfold flush at h
  cases hflush : m.console.flush with
  | done a c =>
    rw [hflush] at h
    cases h
    exact ⟨c, rfl⟩
  | failed f c =>
    rw [hflush] at h
    cases h
    exact ⟨c, rfl⟩
  | unfinished =>
    rw [hflush] at h
    cases h

/-- A flush can only fail for its stream. -/
theorem exists_fault_of_flush {e : RunError} (h : m.flush = .failed e u) : ∃ f, e = .io f := by
  unfold flush at h
  cases hflush : m.console.flush with
  | done a c =>
    rw [hflush] at h
    cases h
  | failed f c =>
    rw [hflush] at h
    cases h
    exact ⟨f, rfl⟩
  | unfinished =>
    rw [hflush] at h
    cases h

end Machine

/-! ## What a command does -/

theorem Command.state?_perform_run (code : Code) (m : Machine) (fuel : Nat) :
    ((Command.run fuel).perform code m).state? = (m.run code fuel).state? := by
  rw [perform]
  cases m.run code fuel <;> rfl

/-- What a command leaves behind is what its operations left, or the flush behind
them. -/
theorem Command.of_perform_state? {code : Code} {m m' : Machine} {cmd : Command}
    (h : (cmd.perform code m).state? = some m') :
    ∃ n u, (m.advance code n).state? = some u ∧ (m' = u ∨ u.flush.state? = some m') := by
  cases cmd with
  | step =>
    have hstep : (m.step code).state? = some m' := h
    refine ⟨1, m', ?_, .inl rfl⟩
    rw [Machine.advance]
    cases ho : m.step code with
    | done more u =>
      rw [ho] at hstep
      cases more <;> exact hstep
    | failed e u =>
      rw [ho] at hstep
      exact hstep
    | unfinished =>
      rw [ho] at hstep
      cases hstep
  | runAtMost limit =>
    rcases Outcome.of_state?_bind h with ⟨e, hfailed⟩ | ⟨_, u, hdone, hrest⟩
    · exact ⟨limit, m', by rw [hfailed]; rfl, .inl rfl⟩
    · refine ⟨limit, u, by rw [hdone]; rfl, .inr ?_⟩
      rcases Outcome.of_state?_bind hrest with ⟨e, hfailed⟩ | ⟨_, v, hflush, hanswer⟩
      · rw [hfailed]
        rfl
      · cases hanswer
        rw [hflush]
        rfl
  | run fuel =>
    rw [state?_perform_run] at h
    rcases Outcome.of_state?_bind h with ⟨e, hfailed⟩ | ⟨_, u, hdone, hrest⟩
    · exact ⟨fuel, m', by rw [hfailed]; rfl, .inl rfl⟩
    · refine ⟨fuel, u, by rw [hdone]; rfl, .inr ?_⟩
      by_cases hend : u.atEnd code = true
      · rw [if_pos hend] at hrest
        exact hrest
      · rw [if_neg hend] at hrest
        cases hrest

namespace Machine

variable {code : Code} {m u m' : Machine}

/-! ## What commands keep -/

/-- A property that every step keeps, and that does not look at the console. -/
structure Kept (code : Code) (P : Machine → Prop) : Prop where
  step : ∀ m u : Machine, P m → (m.step code).state? = some u → P u
  console : ∀ (m : Machine) (c : Console), P m → P { m with console := c }

namespace Kept

variable {P : Machine → Prop}

theorem advance (kept : Kept code P) {n : Nat} (hm : P m)
    (h : (m.advance code n).state? = some u) : P u := by
  induction n generalizing m with
  | zero =>
    cases h
    exact hm
  | succ n ih =>
    rw [Machine.advance] at h
    cases hstep : m.step code with
    | done more v =>
      have hv : P v := kept.step m v hm (by rw [hstep]; rfl)
      rw [hstep] at h
      cases more with
      | true => exact ih hv h
      | false =>
        cases h
        exact hv
    | failed e v =>
      have hv : P v := kept.step m v hm (by rw [hstep]; rfl)
      rw [hstep] at h
      cases h
      exact hv
    | unfinished =>
      rw [hstep] at h
      cases h

theorem flush (kept : Kept code P) (hm : P m) (h : m.flush.state? = some u) : P u := by
  obtain ⟨c, rfl⟩ := exists_console_of_flush h
  exact kept.console m c hm

theorem perform (kept : Kept code P) {cmd : Command} (hm : P m)
    (h : (cmd.perform code m).state? = some u) : P u := by
  obtain ⟨n, v, hadvance, rfl | hflush⟩ := Command.of_perform_state? h
  · exact kept.advance hm hadvance
  · exact kept.flush (kept.advance hm hadvance) hflush

theorem runAtMost (kept : Kept code P) {limit : Nat} (hm : P m)
    (h : (m.runAtMost code limit).state? = some u) : P u := by
  have hperform : ((Command.runAtMost limit).perform code m).state? = some u := h
  exact kept.perform hm hperform

theorem run (kept : Kept code P) {fuel : Nat} (hm : P m)
    (h : (m.run code fuel).state? = some u) : P u := by
  rw [← Command.state?_perform_run] at h
  exact kept.perform hm h

/-- What every step keeps, every session keeps, through all its failures. -/
theorem leads (kept : Kept code P) {cmds : List Command} (hm : P m)
    (h : Leads code m cmds m') : P m' := by
  induction h with
  | nil => exact hm
  | cons hcmd _ ih => exact ih (kept.perform hm hcmd)

end Kept

/-! ## How commands fail -/

/-- Operations in a row fail at one of them, and those before it succeed. -/
theorem exists_step_of_advance_eq_failed {n : Nat} {e : RunError}
    (h : m.advance code n = .failed e m') :
    ∃ k u, k < n ∧ m.advance code k = .done () u ∧ u.step code = .failed e m' := by
  induction n generalizing m with
  | zero => cases h
  | succ n ih =>
    rw [advance] at h
    cases hstep : m.step code with
    | done more v =>
      rw [hstep] at h
      cases more with
      | true =>
        obtain ⟨k, u, hk, hadvance, hfailed⟩ := ih h
        refine ⟨k + 1, u, Nat.succ_lt_succ hk, ?_, hfailed⟩
        rw [advance, hstep]
        exact hadvance
      | false => cases h
    | failed e' v =>
      rw [hstep] at h
      cases h
      exact ⟨0, m, Nat.succ_pos n, rfl, hstep⟩
    | unfinished =>
      rw [hstep] at h
      cases h

end Machine

namespace Command

variable {code : Code} {m m' : Machine}

/-- The command, given to `m`, has executed all its operations and is about to
flush the output of `last`. A single step does not flush. -/
inductive ComesToFlush (code : Code) (m last : Machine) : Command → Prop
  | runAtMost {limit : Nat} : m.advance code limit = .done () last →
      ComesToFlush code m last (.runAtMost limit)
  | run {fuel : Nat} : m.advance code fuel = .done () last → last.atEnd code = true →
      ComesToFlush code m last (.run fuel)

/-- A command that fails does so at a step, after steps that succeeded, or at its
final flush. -/
theorem of_perform_eq_failed {cmd : Command} {e : RunError}
    (h : cmd.perform code m = .failed e m') :
    (∃ k u, m.advance code k = .done () u ∧ u.step code = .failed e m') ∨
      ∃ last, cmd.ComesToFlush code m last ∧ last.flush = .failed e m' := by
  cases cmd with
  | step => exact .inl ⟨0, m, rfl, h⟩
  | runAtMost limit =>
    rcases Outcome.of_bind_eq_failed h with hfailed | ⟨_, last, hdone, hrest⟩
    · obtain ⟨k, u, -, hadvance, hstep⟩ := Machine.exists_step_of_advance_eq_failed hfailed
      exact .inl ⟨k, u, hadvance, hstep⟩
    · rcases Outcome.of_bind_eq_failed hrest with hflush | ⟨_, u, -, hanswer⟩
      · exact .inr ⟨last, .runAtMost hdone, hflush⟩
      · cases hanswer
  | run fuel =>
    rcases Outcome.of_bind_eq_failed h with hrun | ⟨_, u, -, hanswer⟩
    · rcases Outcome.of_bind_eq_failed hrun with hfailed | ⟨_, last, hdone, hrest⟩
      · obtain ⟨k, u, -, hadvance, hstep⟩ := Machine.exists_step_of_advance_eq_failed hfailed
        exact .inl ⟨k, u, hadvance, hstep⟩
      · by_cases hend : last.atEnd code = true
        · rw [if_pos hend] at hrest
          exact .inr ⟨last, .run hdone hend, hrest⟩
        · rw [if_neg hend] at hrest
          cases hrest
    · cases hanswer

end Command

end Brainfuck
