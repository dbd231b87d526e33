import Brainfuck.Proofs.Footing
import Brainfuck.Proofs.Resuming

/-!
# Full runs and limited runs

A full run learns that the program is at its end from a step that finds nothing
to execute; a limited run looks at the program counter when it is over. The two
agree, also if the limit is reached with the last operation:

* **counting** — `Machine.executed` is how many operations are executed. As many,
  or fewer, can be executed alone, and before the last of them the program is not
  at its end (`exists_advance_of_le_executed`);
* **more than needed** — a program that came to its end, or failed, does so with
  every larger number of operations (`advance_of_executed_le`,
  `advance_of_executed_lt`);
* **the flush behind it** — if flushes never fail, a limited run adds nothing but
  a flush to its operations (`exists_runAtMost_of_advance`).

The main result is `limited_run_agrees_with_run`.
-/

namespace Brainfuck

namespace Machine

variable {code : Code} {m u last : Machine} {n k : Nat}

/-! ## Counting operations -/

/-- How many operations are executed if up to `n` are allowed. It is fewer than
`n` if the program ends or fails before. -/
def executed (code : Code) : Nat → Machine → Nat
  | 0, _ => 0
  | n + 1, m =>
    match m.step code with
    | .done true u => executed code n u + 1
    | _ => 0

/-- A step that executes an operation counts it. -/
theorem steps_of_step (h : m.step code = .done true u) : u.steps = bump m.steps := by
  rcases of_step_eq_done h with ⟨-, hend⟩ | ⟨op, v, -, hexec, rfl⟩
  · rw [step_of_atEnd hend] at h
    cases h
  · have hsteps : v.steps = m.steps := steps_of_exec (by rw [hexec]; rfl)
    show bump v.steps = bump m.steps
    rw [hsteps]

theorem not_atEnd_of_step (h : m.step code = .done true u) : m.atEnd code = false := by
  cases hend : m.atEnd code with
  | false => rfl
  | true =>
    rw [step_of_atEnd hend] at h
    cases h

/-- Of the operations that are executed, the first `k` can be executed alone. The
step counter counts them, and if they are not all, the program is not at its end. -/
theorem exists_advance_of_le_executed (hk : k ≤ m.executed code n)
    (small : m.steps + k ≤ counterMax) :
    ∃ u, m.advance code k = .done () u ∧ u.steps = m.steps + k ∧
      (k < m.executed code n → u.atEnd code = false) := by
  induction n generalizing m k with
  | zero =>
    rw [executed] at hk ⊢
    obtain rfl : k = 0 := Nat.le_zero.mp hk
    exact ⟨m, rfl, rfl, fun hlt => absurd hlt (Nat.lt_irrefl 0)⟩
  | succ n ih =>
    cases k with
    | zero =>
      refine ⟨m, rfl, rfl, ?_⟩
      intro hlt
      rw [executed] at hlt
      split at hlt
      · rename_i hstep
        exact not_atEnd_of_step hstep
      · exact absurd hlt (Nat.lt_irrefl 0)
    | succ k =>
      rw [executed] at hk ⊢
      split at hk
      · rename_i v hstep
        have hv : v.steps = m.steps + 1 := by
          rw [steps_of_step hstep, bump_of_lt (by omega)]
        obtain ⟨u, hadvance, hsteps, hend⟩ := ih (Nat.le_of_succ_le_succ hk) (by omega)
        refine ⟨u, ?_, by omega, ?_⟩
        · rw [advance, hstep]
          exact hadvance
        · intro hlt
          exact hend (Nat.lt_of_succ_lt_succ hlt)
      · omega

/-- A program that came to its end stays there, whatever else is allowed. -/
theorem advance_of_executed_le (h : m.advance code n = .done () u) (hend : u.atEnd code = true)
    (hk : m.executed code n ≤ k) : m.advance code k = .done () u := by
  induction n generalizing m k with
  | zero =>
    cases h
    exact advance_of_atEnd hend k
  | succ n ih =>
    rw [advance] at h
    rw [executed] at hk
    cases hstep : m.step code with
    | done more v =>
      rw [hstep] at h hk
      cases more with
      | true =>
        have hle : v.executed code n + 1 ≤ k := hk
        obtain ⟨k, rfl⟩ : ∃ j, k = j + 1 := ⟨k - 1, by omega⟩
        rw [advance, hstep]
        exact ih h (Nat.le_of_succ_le_succ hle)
      | false =>
        obtain ⟨rfl, hhere⟩ := eq_of_step_false hstep
        cases h
        exact advance_of_atEnd hhere k
    | failed e v =>
      rw [hstep] at h
      cases h
    | unfinished =>
      rw [hstep] at h
      cases h

/-- A program that fails does so as soon as the operation that fails is allowed. -/
theorem advance_of_executed_lt {e : RunError} (h : m.advance code n = .failed e u)
    (hk : m.executed code n < k) : m.advance code k = .failed e u := by
  induction n generalizing m k with
  | zero => cases h
  | succ n ih =>
    obtain ⟨k, rfl⟩ : ∃ j, k = j + 1 := ⟨k - 1, by omega⟩
    rw [advance] at h ⊢
    rw [executed] at hk
    cases hstep : m.step code with
    | done more v =>
      rw [hstep] at h hk
      cases more with
      | true => exact ih h (Nat.lt_of_succ_lt_succ hk)
      | false => cases h
    | failed e' v =>
      rw [hstep] at h
      exact h
    | unfinished =>
      rw [hstep] at h
      cases h

/-- Where the next operation fails, the program is not at its end. -/
theorem not_atEnd_of_failed {e : RunError} (h : m.advance code k = .done () u)
    (hfailed : m.advance code (k + 1) = .failed e last) : u.atEnd code = false := by
  cases hend : u.atEnd code with
  | false => rfl
  | true =>
    rw [advance_add, h, Outcome.bind_done, advance_of_atEnd hend] at hfailed
    cases hfailed

/-! ## The flush behind the operations -/

theorem atEnd_of_flush (h : u.flush = .done () last) : last.atEnd code = u.atEnd code := by
  obtain ⟨c, rfl⟩ := exists_console_of_flush (m := u) (u := last) (by rw [h]; rfl)
  rfl

/-- A limited run is its operations and a flush, which does not fail. -/
theorem exists_runAtMost_of_advance (steady : m.console.writer.flushes = none)
    (h : m.advance code k = .done () u) :
    ∃ last, m.runAtMost code k = .done (u.atEnd code) last ∧ u.flush = .done () last ∧
      last.steps = u.steps := by
  obtain ⟨last, hflush, hcoupled⟩ := exists_flush_of_steady (steady_of_advance steady h)
  refine ⟨last, ?_, hflush, hcoupled.steps.symm⟩
  rw [runAtMost, h, Outcome.bind_done, hflush, Outcome.bind_done, atEnd_of_flush hflush]

/-- A run that fails does so at an operation if flushes do not fail. -/
theorem advance_of_run_eq_failed (steady : m.console.writer.flushes = none) {e : RunError}
    (h : m.run code n = .failed e u) : m.advance code n = .failed e u := by
  rcases Outcome.of_bind_eq_failed h with hfailed | ⟨_, v, hdone, hrest⟩
  · exact hfailed
  · obtain ⟨last, hflush, -⟩ := exists_flush_of_steady (steady_of_advance steady hdone)
    rw [hflush] at hrest
    split at hrest <;> cases hrest

theorem advance_of_runAtMost_eq_failed (steady : m.console.writer.flushes = none) {e : RunError}
    (h : m.runAtMost code k = .failed e u) : m.advance code k = .failed e u := by
  rcases Outcome.of_bind_eq_failed h with hfailed | ⟨_, v, hdone, hrest⟩
  · exact hfailed
  · obtain ⟨last, hflush, -⟩ := exists_flush_of_steady (steady_of_advance steady hdone)
    rw [hflush] at hrest
    cases hrest

/-! ## From a full run to limited ones and back -/

/-- A full run that comes to the end says what every limited run comes to. -/
theorem exists_runAtMost_of_run_done (steady : m.console.writer.flushes = none)
    (h : m.run code n = .done () last) (small : m.steps + m.executed code n ≤ counterMax)
    (k : Nat) :
    ∃ u, m.runAtMost code k = .done (decide (m.executed code n ≤ k)) u ∧
      u.steps = m.steps + min k (m.executed code n) ∧ (m.executed code n ≤ k → u = last) := by
  obtain ⟨v, hadvance, hend, hflush⟩ := of_run_eq_done h
  by_cases hk : m.executed code n ≤ k
  · -- the end is reached, and what is flushed there is what the full run flushes
    have hv := advance_of_executed_le hadvance hend (Nat.le_refl _)
    obtain ⟨v', hv', hsteps, -⟩ := exists_advance_of_le_executed (Nat.le_refl _) small
    obtain ⟨u, hrun, hu, hcount⟩ :=
      exists_runAtMost_of_advance steady (advance_of_executed_le hadvance hend hk)
    rw [hv] at hv'
    cases hv'
    rw [hflush] at hu
    cases hu
    refine ⟨last, ?_, ?_, fun _ => rfl⟩
    · rw [hrun, hend, decide_eq_true hk]
    · rw [hcount, hsteps, Nat.min_eq_right hk]
  · have hlt : k < m.executed code n := Nat.lt_of_not_le hk
    obtain ⟨v', hv', hsteps, hopen⟩ :=
      exists_advance_of_le_executed (Nat.le_of_lt hlt) (by omega)
    obtain ⟨u, hrun, -, hcount⟩ := exists_runAtMost_of_advance steady hv'
    refine ⟨u, ?_, ?_, fun hle => absurd hle hk⟩
    · rw [hrun, hopen hlt, decide_eq_false hk]
    · rw [hcount, hsteps, Nat.min_eq_left (Nat.le_of_lt hlt)]

/-- Before a full run fails, limited runs stop at their limit. -/
theorem exists_runAtMost_of_run_failed (steady : m.console.writer.flushes = none) {e : RunError}
    (h : m.run code n = .failed e last) (small : m.steps + m.executed code n ≤ counterMax)
    (hk : k ≤ m.executed code n) :
    ∃ u, m.runAtMost code k = .done false u ∧ u.steps = m.steps + k := by
  have hfailed := advance_of_run_eq_failed steady h
  obtain ⟨v, hv, hsteps, hopen⟩ := exists_advance_of_le_executed hk (by omega)
  have hend : v.atEnd code = false := by
    rcases Nat.lt_or_eq_of_le hk with hlt | rfl
    · exact hopen hlt
    · exact not_atEnd_of_failed hv (advance_of_executed_lt hfailed (Nat.lt_succ_self _))
  obtain ⟨u, hrun, -, hcount⟩ := exists_runAtMost_of_advance steady hv
  exact ⟨u, by rw [hrun, hend], hcount.trans hsteps⟩

/-- When a full run has failed, limited runs fail in the same way. -/
theorem runAtMost_of_run_failed (steady : m.console.writer.flushes = none) {e : RunError}
    (h : m.run code n = .failed e last) (hk : m.executed code n < k) :
    m.runAtMost code k = .failed e last := by
  have hfailed := advance_of_run_eq_failed steady h
  rw [runAtMost, advance_of_executed_lt hfailed hk]
  rfl

/-- A limited run that comes to the end is a full run. -/
theorem run_of_runAtMost_done (h : m.runAtMost code k = .done true last) (hn : k ≤ n) :
    m.run code n = .done () last := by
  obtain ⟨_, v, hadvance, hrest⟩ := Outcome.of_bind_eq_done h
  obtain ⟨_, w, hflush, hanswer⟩ := Outcome.of_bind_eq_done hrest
  have hhalted : w.atEnd code = true ∧ w = last := by
    injection hanswer with hhalted hlast
    exact ⟨hhalted, hlast⟩
  obtain ⟨hhalted, rfl⟩ := hhalted
  have hend : v.atEnd code = true := (atEnd_of_flush hflush).symm.trans hhalted
  have hlonger : m.advance code n = .done () v := by
    rw [← Nat.add_sub_cancel' hn, advance_add, hadvance]
    exact advance_of_atEnd hend _
  rw [run_of_advance_done hlonger hend]
  exact hflush

/-- A limited run that fails is a full run that fails. -/
theorem run_of_runAtMost_failed (steady : m.console.writer.flushes = none) {e : RunError}
    (h : m.runAtMost code k = .failed e last) (hn : k ≤ n) : m.run code n = .failed e last := by
  have hfailed := advance_of_runAtMost_eq_failed steady h
  apply run_of_advance_failed
  rw [← Nat.add_sub_cancel' hn, advance_add, hfailed]
  rfl

end Machine

/-- **A limited run is the full run up to its limit.** Let the flushes of a writer
never fail. If the full run from the start comes to the end after `N` operations,
a limited run is told that it did if its limit is `N` or more, executes the
smaller of the two numbers, and leaves the same machine behind if that is `N`. If
the full run fails after `N` operations, a limited run fails in the same way and
leaves the same machine behind if its limit is above `N`, and else stops short of
the end with as many operations as it was allowed. Each limited run that comes to
the end, or fails, is also a full run that does, with any fuel from its limit on. -/
theorem limited_run_agrees_with_run {code : Code} {size : Nat} {c : Console}
    (steady : c.writer.flushes = none) :
    (∀ (fuel N : Nat) (m : Machine), (Machine.start size c).run code fuel = .done () m →
      (Machine.start size c).executed code fuel = N → N ≤ counterMax →
      ∀ k, ∃ u, (Machine.start size c).runAtMost code k = .done (decide (N ≤ k)) u ∧
        u.steps = min k N ∧ (N ≤ k → u = m)) ∧
    (∀ (fuel N : Nat) (e : RunError) (m : Machine),
      (Machine.start size c).run code fuel = .failed e m →
      (Machine.start size c).executed code fuel = N → N ≤ counterMax →
      (∀ k ≤ N, ∃ u, (Machine.start size c).runAtMost code k = .done false u ∧ u.steps = k) ∧
      ∀ k > N, (Machine.start size c).runAtMost code k = .failed e m) ∧
    ∀ (k : Nat) (m : Machine),
      ((Machine.start size c).runAtMost code k = .done true m →
        ∀ fuel ≥ k, (Machine.start size c).run code fuel = .done () m) ∧
      ∀ e, (Machine.start size c).runAtMost code k = .failed e m →
        ∀ fuel ≥ k, (Machine.start size c).run code fuel = .failed e m := by
  have hzero (n : Nat) : (Machine.start size c).steps + n = n := Nat.zero_add n
  refine ⟨?_, ?_, ?_⟩
  · rintro fuel N m hrun rfl small k
    have h := Machine.exists_runAtMost_of_run_done steady hrun (by rw [hzero]; exact small) k
    rw [hzero] at h
    exact h
  · rintro fuel N e m hrun rfl small
    refine ⟨?_, ?_⟩
    · intro k hk
      have h := Machine.exists_runAtMost_of_run_failed steady hrun (by rw [hzero]; exact small) hk
      rw [hzero] at h
      exact h
    · intro k hk
      exact Machine.runAtMost_of_run_failed steady hrun hk
  · intro k m
    refine ⟨?_, ?_⟩
    · intro h fuel hfuel
      exact Machine.run_of_runAtMost_done h hfuel
    · intro e h fuel hfuel
      exact Machine.run_of_runAtMost_failed steady h hfuel

/-- A jump to the largest index is the last of two operations; a walk off the tape
comes after two others. -/
theorem limited_run_agrees_with_run_far_jump :
    ((Machine.start 1 {}).run #[.run .inc 1, .jumpNonzero counterMax] 9 =
        .done () { tape := ⟨#[1]⟩, pc := counterMax, steps := 2,
                   console := { calls := [.flush true] } } ∧
      (Machine.start 1 {}).executed #[.run .inc 1, .jumpNonzero counterMax] 9 = 2 ∧
      ∀ k, ∃ u, (Machine.start 1 {}).runAtMost #[.run .inc 1, .jumpNonzero counterMax] k =
          .done (decide (2 ≤ k)) u ∧
        u.steps = min k 2 ∧
        (2 ≤ k → u = { tape := ⟨#[1]⟩, pc := counterMax, steps := 2,
                       console := { calls := [.flush true] } })) ∧
    (Machine.start 1 {}).run #[.run .inc 1, .run .write 1, .run .right 1] 9 =
      .failed (.offTape 2 1) { tape := ⟨#[1]⟩, pc := 2, steps := 2,
                               console := { calls := [.wrote [1]] } } ∧
    (∀ k ≤ 2, ∃ u, (Machine.start 1 {}).runAtMost #[.run .inc 1, .run .write 1, .run .right 1] k =
      .done false u ∧ u.steps = k) ∧
    ∀ k > 2, (Machine.start 1 {}).runAtMost #[.run .inc 1, .run .write 1, .run .right 1] k =
      .failed (.offTape 2 1) { tape := ⟨#[1]⟩, pc := 2, steps := 2,
                               console := { calls := [.wrote [1]] } } := by
  have steady : ({} : Console).writer.flushes = none := rfl
  have ends : (Machine.start 1 {}).run #[.run .inc 1, .jumpNonzero counterMax] 9 =
      .done () { tape := ⟨#[1]⟩, pc := counterMax, steps := 2,
                 console := { calls := [.flush true] } } := rfl
  have fails : (Machine.start 1 {}).run #[.run .inc 1, .run .write 1, .run .right 1] 9 =
      .failed (.offTape 2 1) { tape := ⟨#[1]⟩, pc := 2, steps := 2,
                               console := { calls := [.wrote [1]] } } := rfl
  refine ⟨⟨ends, rfl, ?_⟩, fails, ?_⟩
  · exact (limited_run_agrees_with_run steady).1 9 2 _ ends rfl (by decide)
  · exact (limited_run_agrees_with_run steady).2.1 9 2 _ _ fails rfl (by decide)

end Brainfuck
