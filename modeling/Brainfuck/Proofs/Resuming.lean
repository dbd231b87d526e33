import Brainfuck.Proofs.Coupling

/-!
# Stopping and going on

A limited run ends with a flush. If flushes never fail, that is all that can be
seen of the place where it was stopped:

* **consoles** — two consoles are the same up to flushes if they have the same
  reader and writer and the same calls otherwise (`Console.UpToFlushes`). Every
  call keeps that (`UpToFlushes.coupling`), so by `Coupled.advance` machines that
  differ in flushes only go on in the same way;
* **two runs** — a run of `a` operations and one of `b` more are one run of
  `a + b`, whatever they come to (`alike_runAtMost_add`);
* **any number of commands** — one command that succeeds leaves the machine where
  as many operations lead as it was allowed (`exists_advance_of_perform`), and so
  do commands in a row, with what they are allowed together (`Succeeds.advance`).

The main result is `stopping_is_invisible`.
-/

namespace Brainfuck

/-! ## Up to flushes -/

/-- Whether the call is a flush. -/
def Call.isFlush : Call → Bool
  | .flush _ => true
  | _ => false

/-- The calls, with the flushes left out. -/
def Calls.withoutFlushes (calls : Calls) : Calls := calls.filter fun call => !call.isFlush

theorem Calls.withoutFlushes_cons {call : Call} (h : call.isFlush = false) (earlier : Calls) :
    withoutFlushes (call :: earlier) = call :: withoutFlushes earlier := by
  simp [withoutFlushes, h]

theorem Calls.withoutFlushes_flush (ok : Bool) (earlier : Calls) :
    withoutFlushes (.flush ok :: earlier) = withoutFlushes earlier := by
  simp [withoutFlushes, Call.isFlush]

/-- Flushes bring out no bytes. -/
theorem Calls.output_withoutFlushes (calls : Calls) :
    output (withoutFlushes calls) = output calls :=
  output_filter (fun _ => rfl) calls

namespace Console

variable {c d e : Console}

/-- The two consoles differ at most in their flushes, none of which fails. -/
structure UpToFlushes (c d : Console) : Prop where
  reader : c.reader = d.reader
  writer : c.writer = d.writer
  steady : c.writer.flushes = none
  calls : c.calls.withoutFlushes = d.calls.withoutFlushes

namespace UpToFlushes

theorem refl (steady : c.writer.flushes = none) : UpToFlushes c c := ⟨rfl, rfl, steady, rfl⟩

theorem symm (h : UpToFlushes c d) : UpToFlushes d c :=
  ⟨h.reader.symm, h.writer.symm, h.writer ▸ h.steady, h.calls.symm⟩

theorem trans (h : UpToFlushes c d) (h' : UpToFlushes d e) : UpToFlushes c e :=
  ⟨h.reader.trans h'.reader, h.writer.trans h'.writer, h.steady, h.calls.trans h'.calls⟩

theorem output (h : UpToFlushes c d) : c.output = d.output := by
  rw [Console.output, Console.output, ← Calls.output_withoutFlushes, h.calls,
    Calls.output_withoutFlushes]

/-- A call other than a flush, made on both consoles. -/
theorem call (h : UpToFlushes c d) {call : Call} (hcall : call.isFlush = false) {r : Reader}
    {w : Writer} (steady : w.flushes = none) :
    UpToFlushes ⟨r, w, call :: c.calls⟩ ⟨r, w, call :: d.calls⟩ := by
  refine ⟨rfl, rfl, steady, ?_⟩
  show Calls.withoutFlushes (call :: c.calls) = Calls.withoutFlushes (call :: d.calls)
  rw [Calls.withoutFlushes_cons hcall, Calls.withoutFlushes_cons hcall, h.calls]

end UpToFlushes

/-- A writer whose flushes never fail is the same after a flush. -/
theorem flush_of_steady (steady : c.writer.flushes = none) :
    c.flush = .done () { c with calls := .flush true :: c.calls } := by
  obtain ⟨reader, ⟨room, flushes, silent, fault, interruptions⟩, calls⟩ := c
  cases steady
  rfl

theorem upToFlushes_flush (steady : c.writer.flushes = none) :
    UpToFlushes c { c with calls := .flush true :: c.calls } :=
  ⟨rfl, rfl, steady, (Calls.withoutFlushes_flush true c.calls).symm⟩

namespace UpToFlushes

theorem flush (h : UpToFlushes c d) : Outcome.Alike UpToFlushes c.flush d.flush := by
  rw [flush_of_steady h.steady, flush_of_steady h.symm.steady]
  have hc := (upToFlushes_flush h.steady).symm
  have hd := upToFlushes_flush h.symm.steady
  exact .done () ((hc.trans h).trans hd)

theorem heard (h : UpToFlushes c d) : UpToFlushes c.heard d.heard := by
  rw [Console.heard, Console.heard, ← h.reader, ← h.writer]
  exact h.call rfl h.steady

theorem ask (h : UpToFlushes c d) : Outcome.Alike UpToFlushes c.ask d.ask :=
  alike_ask (fun _ _ h => h.reader) (fun _ _ h => h.heard) h

theorem persist (h : UpToFlushes c d) : UpToFlushes c.persist d.persist :=
  ⟨h.reader, congrArg Writer.settle h.writer, h.steady,
    filter_calls_persist rfl h.writer h.calls⟩

theorem putByte (h : UpToFlushes c d) (b : UInt8) :
    Outcome.Alike UpToFlushes (c.putByte b) (d.putByte b) := by
  have hlater := h.persist
  rw [putByte_eq, putByte_eq, ← h.writer, ← h.reader, ← hlater.writer]
  split
  · split
    · exact .unfinished
    · exact .failed _ (hlater.call rfl h.steady)
  · exact .done () (hlater.call rfl h.steady)

theorem coupling : Coupling UpToFlushes :=
  ⟨fun _ _ => flush, fun _ _ => ask, fun b _ _ h => h.putByte b⟩

end UpToFlushes

end Console

/-! ## Machines that never fail to flush -/

namespace Machine

open Outcome
open Console (UpToFlushes)

variable {code : Code} {m u v : Machine}

/-- The two machines can only be told apart by their flushes. -/
structure SameButFlushes (m u : Machine) : Prop where
  tape : m.tape = u.tape
  ptr : m.ptr = u.ptr
  pc : m.pc = u.pc
  steps : m.steps = u.steps
  reader : m.console.reader = u.console.reader
  writer : m.console.writer = u.console.writer
  output : m.console.output = u.console.output
  calls : m.console.calls.withoutFlushes = u.console.calls.withoutFlushes

namespace Coupled

theorem symm_upToFlushes (h : Coupled UpToFlushes m u) : Coupled UpToFlushes u m :=
  ⟨h.tape.symm, h.ptr.symm, h.pc.symm, h.steps.symm, h.console.symm⟩

theorem trans_upToFlushes (h : Coupled UpToFlushes m u) (h' : Coupled UpToFlushes u v) :
    Coupled UpToFlushes m v :=
  ⟨h.tape.trans h'.tape, h.ptr.trans h'.ptr, h.pc.trans h'.pc, h.steps.trans h'.steps,
    h.console.trans h'.console⟩

theorem sameButFlushes (h : Coupled UpToFlushes m u) : SameButFlushes m u :=
  ⟨h.tape, h.ptr, h.pc, h.steps, h.console.reader, h.console.writer, h.console.output,
    h.console.calls⟩

end Coupled

/-- A flush that succeeds is not seen. -/
theorem exists_flush_of_steady (steady : m.console.writer.flushes = none) :
    ∃ last, m.flush = .done () last ∧ Coupled UpToFlushes m last := by
  have hflush : m.flush =
      .done () { m with console.calls := .flush true :: m.console.calls } := by
    rw [flush, Console.flush_of_steady steady]
    rfl
  exact ⟨_, hflush, rfl, rfl, rfl, rfl, Console.upToFlushes_flush steady⟩

theorem alike_advance_of_steady (steady : m.console.writer.flushes = none) (code : Code)
    (n : Nat) : Alike (Coupled UpToFlushes) (m.advance code n) (m.advance code n) :=
  (Coupled.refl (.refl steady)).advance UpToFlushes.coupling code n

theorem steady_of_advance (steady : m.console.writer.flushes = none) {n : Nat}
    (h : m.advance code n = .done () u) : u.console.writer.flushes = none := by
  have hself := alike_advance_of_steady steady code n
  have hu : Coupled UpToFlushes u u := hself.of_state? (by rw [h]; rfl)
  exact hu.console.steady

/-! ## Two runs -/

/-- A limited run of `a + b` operations is one of `b` after `a` operations. -/
theorem runAtMost_add (code : Code) (a b : Nat) (m : Machine) :
    m.runAtMost code (a + b) = (m.advance code a).bind fun _ u => u.runAtMost code b := by
  rw [runAtMost, advance_add]
  cases m.advance code a with
  | done _ u => rfl
  | failed e u => rfl
  | unfinished => rfl

/-- Two limited runs are one, up to the flush between them. -/
theorem alike_runAtMost_add (steady : m.console.writer.flushes = none) (code : Code) (a b : Nat) :
    Alike (Coupled UpToFlushes) (m.runAtMost code (a + b))
      ((m.runAtMost code a).bind fun _ u => u.runAtMost code b) := by
  have hsplit : (m.runAtMost code a).bind (fun _ u => u.runAtMost code b) =
      (m.advance code a).bind fun _ u => u.flush.bind fun _ u => u.runAtMost code b := by
    rw [runAtMost]
    cases m.advance code a with
    | done _ u => cases hflush : u.flush <;> simp [hflush]
    | failed e u => rfl
    | unfinished => rfl
  rw [runAtMost_add, hsplit]
  apply (alike_advance_of_steady steady code a).bind
  intro _ u v huv
  obtain ⟨last, hflush, hlast⟩ := exists_flush_of_steady huv.console.symm.steady
  rw [hflush]
  exact (huv.trans_upToFlushes hlast).runAtMost UpToFlushes.coupling code b

/-- A limited run fails at one of its operations, which a longer one executes in
the same way. -/
theorem runAtMost_add_of_failed (steady : m.console.writer.flushes = none) {a : Nat}
    {e : RunError} (h : m.runAtMost code a = .failed e u) (b : Nat) :
    m.runAtMost code (a + b) = .failed e u := by
  rcases Outcome.of_bind_eq_failed h with hfailed | ⟨_, v, hdone, hrest⟩
  · rw [runAtMost_add, hfailed]
    rfl
  · -- the operations succeeded, so it would be the flush that failed
    obtain ⟨last, hflush, -⟩ := exists_flush_of_steady (steady_of_advance steady hdone)
    rw [hflush] at hrest
    cases hrest

end Machine

/-! ## Any number of commands -/

/-- How many operations the command may execute. -/
def Command.budget : Command → Nat
  | .step => 1
  | .runAtMost limit => limit
  | .run fuel => fuel

/-- How many operations the commands may execute together. -/
def Command.totalBudget : List Command → Nat
  | [] => 0
  | cmd :: cmds => cmd.budget + totalBudget cmds

namespace Machine

open Outcome
open Console (UpToFlushes)

variable {code : Code} {m u v : Machine}

/-- The commands lead from one machine to another, and all of them succeed. -/
inductive Succeeds (code : Code) : Machine → List Command → Machine → Prop
  | nil (m : Machine) : Succeeds code m [] m
  | cons {m u m' : Machine} {cmd : Command} {cmds : List Command} {answer : Bool} :
      cmd.perform code m = .done answer u → Succeeds code u cmds m' →
      Succeeds code m (cmd :: cmds) m'

theorem advance_one_of_step {more : Bool} (h : m.step code = .done more u) :
    m.advance code 1 = .done () u := by
  rw [advance, h]
  cases more <;> rfl

/-- A command that succeeds comes to where its operations come to. -/
theorem exists_advance_of_perform (steady : m.console.writer.flushes = none) {cmd : Command}
    {answer : Bool} (h : cmd.perform code m = .done answer u) :
    ∃ v, m.advance code cmd.budget = .done () v ∧ Coupled UpToFlushes v u := by
  cases cmd with
  | step =>
    have hone : m.advance code 1 = .done () u := advance_one_of_step h
    have hu : u.console.writer.flushes = none := steady_of_advance steady hone
    exact ⟨u, hone, .refl (.refl hu)⟩
  | runAtMost limit =>
    obtain ⟨_, v, hadvance, hrest⟩ := Outcome.of_bind_eq_done h
    obtain ⟨last, hflush, hlast⟩ := exists_flush_of_steady (steady_of_advance steady hadvance)
    rw [hflush] at hrest
    cases hrest
    exact ⟨v, hadvance, hlast⟩
  | run fuel =>
    obtain ⟨_, v, hrun, hanswer⟩ := Outcome.of_bind_eq_done h
    cases hanswer
    obtain ⟨v, hadvance, -, hflush⟩ := of_run_eq_done hrun
    obtain ⟨last, hflush', hlast⟩ := exists_flush_of_steady (steady_of_advance steady hadvance)
    rw [hflush] at hflush'
    cases hflush'
    exact ⟨v, hadvance, hlast⟩

/-- Commands that succeed come to where all their operations in a row come to. -/
theorem Succeeds.advance {cmds : List Command} (h : Succeeds code m cmds u)
    (steady : m.console.writer.flushes = none) :
    ∃ v, m.advance code (Command.totalBudget cmds) = .done () v ∧
      Coupled UpToFlushes v u := by
  induction h with
  | nil m => exact ⟨m, rfl, .refl (.refl steady)⟩
  | @cons m u m' cmd cmds answer hcmd _ ih =>
    obtain ⟨v, hv, hvu⟩ := exists_advance_of_perform steady hcmd
    obtain ⟨w, hw, hwm'⟩ := ih hvu.console.symm.steady
    -- `v` is where the operations of the first command lead; from there on `v` does what `u` does
    have halike := hvu.symm_upToFlushes.advance UpToFlushes.coupling code
      (Command.totalBudget cmds)
    rw [hw] at halike
    obtain ⟨w', hw', hww'⟩ := halike.exists_of_done
    refine ⟨w', ?_, hww'.symm_upToFlushes.trans_upToFlushes hwm'⟩
    rw [Command.totalBudget, advance_add, hv]
    exact hw'

/-- A limited run of as many operations does what commands do that succeed. -/
theorem Succeeds.exists_runAtMost {cmds : List Command} (h : Succeeds code m cmds u)
    (steady : m.console.writer.flushes = none) :
    ∃ halted last, m.runAtMost code (Command.totalBudget cmds) = .done halted last ∧
      Coupled UpToFlushes last u := by
  obtain ⟨v, hadvance, hvu⟩ := h.advance steady
  obtain ⟨last, hflush, hlast⟩ := exists_flush_of_steady hvu.console.steady
  refine ⟨last.atEnd code, last, ?_, hlast.symm_upToFlushes.trans_upToFlushes hvu⟩
  rw [runAtMost, hadvance]
  show (v.flush.bind fun _ u => .done (u.atEnd code) u) = .done (last.atEnd code) last
  rw [hflush]
  rfl

end Machine

/-- **Stopping and going on cannot be seen.** If the flushes of its writer never
fail, a machine comes to the same by a limited run of `a` operations and one of
`b` as by one of `a + b`, up to flushes; if the first of them fails already, that
of `a + b` fails exactly so. Commands that all succeed come to where a limited run
of as many operations comes to as they are allowed together. -/
theorem stopping_is_invisible {code : Code} {size : Nat} {c : Console}
    (steady : c.writer.flushes = none) {before : List Command} {m : Machine}
    (reached : (Machine.start size c).Leads code before m) :
    (∀ a b,
      Outcome.Alike Machine.SameButFlushes (m.runAtMost code (a + b))
          ((m.runAtMost code a).bind fun _ u => u.runAtMost code b) ∧
        ∀ e u, m.runAtMost code a = .failed e u → m.runAtMost code (a + b) = .failed e u) ∧
      ∀ cmds u, m.Succeeds code cmds u →
        ∃ halted last, m.runAtMost code (Command.totalBudget cmds) = .done halted last ∧
          last.SameButFlushes u := by
  have hm : m.console.writer.flushes = none :=
    (Machine.Coupled.leads_self Console.UpToFlushes.coupling (.refl steady) reached).steady
  refine ⟨fun a b => ⟨?_, ?_⟩, ?_⟩
  · apply (Machine.alike_runAtMost_add hm code a b).mono
    intro u v huv
    exact huv.sameButFlushes
  · intro e u hfailed
    exact Machine.runAtMost_add_of_failed hm hfailed b
  · intro cmds u hcmds
    obtain ⟨halted, last, hrun, hlast⟩ := hcmds.exists_runAtMost hm
    exact ⟨halted, last, hrun, hlast.sameButFlushes⟩

/-- A write, a flush and a step on the one side, two operations on the other. -/
theorem stopping_is_invisible_after_write :
    (Machine.start 1 {}).Leads #[.run .inc 3, .run .write 1, .run .dec 1, .run .left 1] [.step]
      { tape := ⟨#[3]⟩, pc := 1, steps := 1 } ∧
    Machine.Succeeds #[.run .inc 3, .run .write 1, .run .dec 1, .run .left 1]
      { tape := ⟨#[3]⟩, pc := 1, steps := 1 } [.runAtMost 1, .step]
      { tape := ⟨#[2]⟩, pc := 3, steps := 3, console := { calls := [.flush true, .wrote [3]] } } ∧
    ∃ halted last,
      Machine.runAtMost #[.run .inc 3, .run .write 1, .run .dec 1, .run .left 1] 2
        { tape := ⟨#[3]⟩, pc := 1, steps := 1 } = .done halted last ∧
      last.SameButFlushes
        { tape := ⟨#[2]⟩, pc := 3, steps := 3,
          console := { calls := [.flush true, .wrote [3]] } } := by
  have reached : (Machine.start 1 {}).Leads
      #[.run .inc 3, .run .write 1, .run .dec 1, .run .left 1] [.step]
      { tape := ⟨#[3]⟩, pc := 1, steps := 1 } := .cons rfl (.nil _)
  have succeeds : Machine.Succeeds #[.run .inc 3, .run .write 1, .run .dec 1, .run .left 1]
      { tape := ⟨#[3]⟩, pc := 1, steps := 1 } [.runAtMost 1, .step]
      { tape := ⟨#[2]⟩, pc := 3, steps := 3, console := { calls := [.flush true, .wrote [3]] } } :=
    .cons rfl (.cons rfl (.nil _))
  exact ⟨reached, succeeds, (stopping_is_invisible rfl reached).2 _ _ succeeds⟩

end Brainfuck
