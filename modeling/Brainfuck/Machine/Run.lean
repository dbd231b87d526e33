import Brainfuck.Log
import Brainfuck.Machine.Step

/-!
# Runs

A run is a number of steps and a flush. It ends at the end of the program; a
limited run ends also at its limit, and both count as success.
-/

namespace Brainfuck.Machine

/-- Execute up to `n` operations. -/
def advance (code : Code) : Nat → Machine → Outcome RunError Machine Unit
  | 0, m => .done () m
  | n + 1, m =>
    match m.step code with
    | .done true m => advance code n m
    | .done false m => .done () m
    | .failed e m => .failed e m
    | .unfinished => .unfinished

/-- At the end of the program there is nothing to execute. -/
theorem step_of_atEnd {code : Code} {m : Machine} (h : m.atEnd code = true) :
    m.step code = .done false m := by
  have hpc : code.size ≤ m.pc := by simpa [atEnd] using h
  unfold step
  rw [Array.getElem?_eq_none hpc]

/-- A step that executes nothing changes nothing, and there is no next one. -/
theorem eq_of_step_false {code : Code} {m m' : Machine} (h : m.step code = .done false m') :
    m' = m ∧ m.atEnd code = true := by
  unfold step at h
  split at h
  · rename_i hop
    cases h
    exact ⟨rfl, by simpa [atEnd] using hop⟩
  · rename_i op hop
    split at h
    · cases hexec : m.exec op <;> rw [hexec] at h <;> cases h
    · cases h

/-- At the end of the program nothing is executed, however much is allowed. -/
theorem advance_of_atEnd {code : Code} {m : Machine} (h : m.atEnd code = true) (n : Nat) :
    m.advance code n = .done () m := by
  cases n with
  | zero => rfl
  | succ n => rw [advance, step_of_atEnd h]

/-- Executing `a + b` operations is executing `a` and then `b`. -/
theorem advance_add (code : Code) (a b : Nat) (m : Machine) :
    m.advance code (a + b) = (m.advance code a).bind fun _ m => m.advance code b := by
  induction a generalizing m with
  | zero => rw [Nat.zero_add]; rfl
  | succ a ih =>
    rw [Nat.succ_add, advance, advance]
    cases hstep : m.step code with
    | done more m' =>
      cases more with
      | true => exact ih m'
      | false =>
        obtain ⟨rfl, hhalt⟩ := eq_of_step_false hstep
        exact (advance_of_atEnd hhalt b).symm
    | failed e m' => rfl
    | unfinished => rfl

/-- Flush the output. -/
def flush (m : Machine) : Outcome RunError Machine Unit :=
  m.console.flush.within .io fun c => { m with console := c }

/-- Execute up to `limit` operations and flush. The answer is whether the
program is at its end. -/
def runAtMost (code : Code) (limit : Nat) (m : Machine) : Outcome RunError Machine Bool :=
  (m.advance code limit).bind fun _ m =>
    m.flush.bind fun _ m => .done (m.atEnd code) m

/-- Run to the end of the program and flush. A run that needs more than `fuel`
operations is left unfinished. -/
def run (code : Code) (fuel : Nat) (m : Machine) : Outcome RunError Machine Unit :=
  (m.advance code fuel).bind fun _ m =>
    if m.atEnd code then m.flush else .unfinished

theorem run_of_advance_done {code : Code} {fuel : Nat} {m last : Machine}
    (h : m.advance code fuel = .done () last) (hend : last.atEnd code = true) :
    m.run code fuel = last.flush := by
  simp [run, h, hend]

theorem run_of_advance_failed {code : Code} {fuel : Nat} {m last : Machine} {e : RunError}
    (h : m.advance code fuel = .failed e last) : m.run code fuel = .failed e last := by
  simp [run, h]

/-- A run that succeeds came to the end of the program and could flush there. -/
theorem of_run_eq_done {code : Code} {fuel : Nat} {m m' : Machine}
    (h : m.run code fuel = .done () m') :
    ∃ last, m.advance code fuel = .done () last ∧ last.atEnd code = true ∧
      last.flush = .done () m' := by
  unfold run at h
  cases hadvance : m.advance code fuel with
  | done _ last =>
    rw [hadvance] at h
    by_cases hend : last.atEnd code = true
    · exact ⟨last, rfl, hend, by simpa [hend] using h⟩
    · simp [hend] at h
  | failed e last =>
    rw [hadvance] at h
    cases h
  | unfinished =>
    rw [hadvance] at h
    cases h

/-- Only an operation can leave the tape, not the flush at the end. -/
theorem of_run_eq_offTape {code : Code} {fuel op : Nat} {cell : Int} {m m' : Machine}
    (h : m.run code fuel = .failed (.offTape op cell) m') :
    m.advance code fuel = .failed (.offTape op cell) m' := by
  unfold run at h
  cases hadvance : m.advance code fuel with
  | done _ last =>
    rw [hadvance] at h
    by_cases hend : last.atEnd code = true
    · cases hflush : last.console.flush <;> simp [hend, flush, hflush, Outcome.within] at h
    · simp [hend] at h
  | failed e last =>
    rw [hadvance] at h
    exact h
  | unfinished =>
    rw [hadvance] at h
    cases h

end Brainfuck.Machine

namespace Brainfuck

/-- Run a program from the start on a tape of the usual size. -/
def execute (code : Code) (fuel : Nat) (console : Console) : Outcome RunError Machine Unit :=
  (Machine.start Machine.defaultSize console).run code fuel

end Brainfuck
