import Brainfuck.Proofs.Coupling
import Brainfuck.Proofs.Serving
import Mathlib.Data.List.Forall2

/-!
# Input in pieces

A reader stores its input in pieces and may be interrupted between any two bytes.
Machines cannot tell. Two readers that deliver the same atoms give the same answer
each time they are asked (`Console.exists_asked`), so:

* **consoles** — consoles with such readers, equal writers, and equal calls except
  for interruptions (`Console.UpToPieces`) stay so, and answer alike
  (`UpToPieces.coupling`);
* **sessions** — whatever is kept in this way by each call is kept by commands in a
  row, which come to the same one after the other (`Machine.Coupled.performAll`).

The main result is `pieces_are_invisible`.
-/

namespace Brainfuck

namespace Console

variable {c d : Console}

/-- The two consoles have the same to deliver and the same writer, and the same
calls were made on them but for those that were interrupted. -/
structure UpToPieces (c d : Console) : Prop where
  atoms : c.reader.atoms = d.reader.atoms
  writer : c.writer = d.writer
  calls : c.calls.withoutInterruptions = d.calls.withoutInterruptions

namespace UpToPieces

/-- A call that was not interrupted, made on both consoles. -/
theorem call (h : UpToPieces c d) {call : Call} (hcall : call.isInterruption = false)
    (w : Writer) :
    UpToPieces { c with writer := w, calls := call :: c.calls }
      { d with writer := w, calls := call :: d.calls } := by
  refine ⟨h.atoms, rfl, ?_⟩
  show Calls.withoutInterruptions (call :: c.calls) = Calls.withoutInterruptions (call :: d.calls)
  rw [Calls.withoutInterruptions_cons hcall, Calls.withoutInterruptions_cons hcall, h.calls]

theorem flush (h : UpToPieces c d) : Outcome.Alike UpToPieces c.flush d.flush := by
  obtain ⟨reader, writer, calls⟩ := c
  obtain ⟨reader', writer', calls'⟩ := d
  obtain rfl : writer = writer' := h.writer
  unfold Console.flush
  dsimp only
  split
  · exact .done () (h.call rfl _)
  · exact .failed _ (h.call rfl _)

theorem ask (h : UpToPieces c d) : Outcome.Alike UpToPieces c.ask d.ask := by
  obtain ⟨c', hasked, hask⟩ := c.exists_asked
  obtain ⟨d', hasked', hask'⟩ := d.exists_asked
  rw [← h.atoms] at hasked' hask'
  have hrest : UpToPieces c' d' := by
    refine ⟨?_, ?_, ?_⟩
    · rw [hasked.atoms, hasked'.atoms, h.atoms]
    · rw [hasked.writer, hasked'.writer, h.writer]
    · rw [hasked.withoutInterruptions, hasked'.withoutInterruptions, h.calls]
  rw [hask, hask']
  unfold Reply.outcome
  split
  · exact .done none hrest
  · exact .done _ hrest
  · exact .failed _ hrest

theorem persist (h : UpToPieces c d) : UpToPieces c.persist d.persist :=
  ⟨h.atoms, congrArg Writer.settle h.writer, filter_calls_persist rfl h.writer h.calls⟩

theorem putByte (h : UpToPieces c d) (b : UInt8) :
    Outcome.Alike UpToPieces (c.putByte b) (d.putByte b) := by
  have hlater := h.persist
  rw [putByte_eq, putByte_eq, ← h.writer, ← hlater.writer]
  split
  · split
    · exact .unfinished
    · exact .failed _ (hlater.call rfl _)
  · exact .done () (hlater.call rfl _)

theorem coupling : Coupling UpToPieces :=
  ⟨fun _ _ => flush, fun _ _ => ask, fun b _ _ h => h.putByte b⟩

theorem output (h : UpToPieces c d) : c.output = d.output := by
  rw [Console.output, Console.output, ← Calls.output_withoutInterruptions, h.calls,
    Calls.output_withoutInterruptions]

theorem flushes (h : UpToPieces c d) : c.flushes = d.flushes := by
  have hskip (calls : Calls) : calls.withoutInterruptions.flushes = calls.flushes :=
    Calls.flushes_filter rfl calls
  rw [Console.flushes, Console.flushes, ← hskip, h.calls, hskip]

theorem flushed (h : UpToPieces c d) : c.flushed = d.flushed := by
  have hskip (calls : Calls) : calls.withoutInterruptions.flushed = calls.flushed :=
    Calls.flushed_filter (fun _ => rfl) rfl calls
  rw [Console.flushed, Console.flushed, ← hskip, h.calls, hskip]

end UpToPieces

end Console

namespace Machine

variable {R : Console → Console → Prop} {m u : Machine}

/-- Commands in a row come to the same on machines that are coupled. -/
theorem Coupled.performAll (coupling : Console.Coupling R) (coupled : Coupled R m u) (code : Code)
    (cmds : List Command) :
    List.Forall₂ (Outcome.Alike (Coupled R)) (m.performAll code cmds) (u.performAll code cmds) := by
  induction cmds generalizing m u with
  | nil => exact .nil
  | cons cmd cmds ih =>
    rw [Machine.performAll, Machine.performAll]
    have hcmd := coupled.perform coupling code cmd
    generalize cmd.perform code m = o, cmd.perform code u = o' at hcmd
    cases hcmd with
    | done answer hnext => exact .cons (.done answer hnext) (ih hnext)
    | failed e hnext => exact .cons (.failed e hnext) (ih hnext)
    | unfinished => exact .cons .unfinished .nil

/-- The two machines can only be told apart by the pieces in which their input is
stored, and by how often they were interrupted. -/
structure SameButPieces (m u : Machine) : Prop where
  tape : m.tape = u.tape
  ptr : m.ptr = u.ptr
  pc : m.pc = u.pc
  steps : m.steps = u.steps
  output : m.console.output = u.console.output
  flushes : m.console.flushes = u.console.flushes
  flushed : m.console.flushed = u.console.flushed
  atoms : m.console.reader.atoms = u.console.reader.atoms
  writer : m.console.writer = u.console.writer

theorem Coupled.sameButPieces (h : Coupled Console.UpToPieces m u) : SameButPieces m u :=
  ⟨h.tape, h.ptr, h.pc, h.steps, h.console.output, h.console.flushes, h.console.flushed,
    h.console.atoms, h.console.writer⟩

end Machine

/-- **How input comes in pieces cannot be seen.** Two readers that deliver the same
atoms make no difference to a session: each command comes to the same with the one
as with the other, and leaves machines behind that differ in nothing but the pieces
of what is still to be read. -/
theorem pieces_are_invisible {r r' : Reader} (same : r.atoms = r'.atoms) (code : Code) (size : Nat)
    (w : Writer) (cmds : List Command) :
    List.Forall₂ (Outcome.Alike Machine.SameButPieces)
      ((Machine.start size { reader := r, writer := w }).performAll code cmds)
      ((Machine.start size { reader := r', writer := w }).performAll code cmds) := by
  have coupled : Machine.Coupled Console.UpToPieces
      (Machine.start size { reader := r, writer := w })
      (Machine.start size { reader := r', writer := w }) :=
    ⟨rfl, rfl, rfl, rfl, same, rfl, rfl⟩
  apply (coupled.performAll Console.UpToPieces.coupling code cmds).imp
  intro o o' halike
  apply halike.mono
  intro m u hmu
  exact hmu.sameButPieces

/-- Two bytes, an end of input and a fault, once as they are and once in pieces. -/
theorem pieces_are_invisible_interrupted :
    Reader.atoms ⟨[.data [1, 2], .eof, .fail ⟨.timedOut, "late"⟩]⟩ =
      Reader.atoms ⟨[.fail ⟨.interrupted, ""⟩, .data [1], .data [], .fail ⟨.interrupted, ""⟩,
        .data [2], .eof, .data [], .fail ⟨.timedOut, "late"⟩]⟩ ∧
    List.Forall₂ (Outcome.Alike Machine.SameButPieces)
      ((Machine.start 1 { reader := ⟨[.data [1, 2], .eof, .fail ⟨.timedOut, "late"⟩]⟩ }).performAll
        #[.run .read 3, .run .write 1, .run .read 1] [.step, .runAtMost 2, .run 9])
      ((Machine.start 1 { reader := ⟨[.fail ⟨.interrupted, ""⟩, .data [1], .data [],
          .fail ⟨.interrupted, ""⟩, .data [2], .eof, .data [],
          .fail ⟨.timedOut, "late"⟩]⟩ }).performAll
        #[.run .read 3, .run .write 1, .run .read 1] [.step, .runAtMost 2, .run 9]) := by
  have same : Reader.atoms ⟨[.data [1, 2], .eof, .fail ⟨.timedOut, "late"⟩]⟩ =
      Reader.atoms ⟨[.fail ⟨.interrupted, ""⟩, .data [1], .data [], .fail ⟨.interrupted, ""⟩,
        .data [2], .eof, .data [], .fail ⟨.timedOut, "late"⟩]⟩ := by decide
  exact ⟨same, pieces_are_invisible same _ 1 {} _⟩

end Brainfuck
