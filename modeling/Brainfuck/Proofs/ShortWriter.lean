import Brainfuck.Op.Listing
import Brainfuck.Proofs.Exchanges
import Brainfuck.Proofs.Resuming

/-!
# Writers that get full

A writer that takes only so many bytes gets the first bytes of what a writer
without a limit gets, and the first byte that it refuses ends the run:

* **one byte** — two consoles that differ in the room of their writers, and in how
  often these are interrupted (`Console.Rationed`), go on alike, until the one has no
  room for a byte that the other takes (`Rationed.putByte`);
* **one operation** — only writing can be cut off. Everything else comes to the
  same (`Machine.curbed_exec`);
* **runs** — a run is cut off at its first operation that is
  (`Machine.curbed_advance`). The other run never takes back a byte, so what it
  writes in the end begins with what was written before the cut
  (`Machine.Curbed`);
* **listings** — lines that are written one after the other are cut off in the same
  way (`Code.exists_putLines`).

The main result is `short_writer_gets_beginning`.
-/

namespace Brainfuck

/-! ## Consoles -/

namespace Calls

/-- The calls, without the writes that took nothing. -/
def withoutRefusals (calls : Calls) : Calls := calls.filter (· != .refused)

theorem withoutRefusals_refusals (n : Nat) (earlier : Calls) :
    withoutRefusals (List.replicate n .refused ++ earlier) = withoutRefusals earlier := by
  simp [withoutRefusals]

theorem output_withoutRefusals (calls : Calls) : output (withoutRefusals calls) = output calls :=
  output_filter (fun _ => rfl) calls

end Calls

namespace Console

variable {inStep : Prop} {limit : Nat} {f : IoFault} {c d : Console}

/-- The two consoles have the same reader, and the same calls were made on them, but for
writes that took nothing. If the writers are interrupted in step, these are the same
too. -/
structure SameButWriter (inStep : Prop) (c d : Console) : Prop where
  reader : c.reader = d.reader
  calls : c.calls.withoutRefusals = d.calls.withoutRefusals
  refusals : inStep → c.calls = d.calls

/-- A call made on both consoles. -/
theorem SameButWriter.call (h : SameButWriter inStep c d) (call : Call) {r r' : Reader}
    {w w' : Writer} (hr : r = r') :
    SameButWriter inStep ⟨r, w, call :: c.calls⟩ ⟨r', w', call :: d.calls⟩ := by
  refine ⟨hr, ?_, ?_⟩
  · show Calls.withoutRefusals (call :: c.calls) = Calls.withoutRefusals (call :: d.calls)
    have hcalls := h.calls
    unfold Calls.withoutRefusals at hcalls ⊢
    rw [List.filter_cons, List.filter_cons, hcalls]
  · intro hstep
    show call :: c.calls = call :: d.calls
    rw [h.refusals hstep]

/-- The one console never fails to write. The other one takes `limit` bytes in all,
counted from the start, and then fails with `f`. -/
structure Rationed (inStep : Prop) (limit : Nat) (f : IoFault) (c d : Console) : Prop extends
    SameButWriter inStep c d where
  interruptions : inStep → c.writer.interruptions = d.writer.interruptions
  free : c.writer.Reliable
  steady : d.writer.flushes = none
  refusal : d.writer.refusal = f
  room : ∃ r, d.writer.room = some r ∧ c.output.length + r = limit

namespace Rationed

theorem output (h : Rationed inStep limit f c d) : c.output = d.output := by
  rw [Console.output, Console.output, ← Calls.output_withoutRefusals, h.calls,
    Calls.output_withoutRefusals]

/-- A call that brings out no bytes, made on both consoles. -/
theorem call (h : Rationed inStep limit f c d) (call : Call) {r r' : Reader} (hr : r = r')
    (hcall : Calls.output (call :: c.calls) = c.output) :
    Rationed inStep limit f { c with reader := r, calls := call :: c.calls }
      { d with reader := r', calls := call :: d.calls } := by
  obtain ⟨room, hroom, hsum⟩ := h.room
  refine ⟨h.toSameButWriter.call call hr, h.interruptions, h.free, h.steady, h.refusal, room, hroom,
    ?_⟩
  show (Calls.output (call :: c.calls)).length + room = limit
  rw [hcall]
  exact hsum

theorem flush (h : Rationed inStep limit f c d) :
    Outcome.Alike (Rationed inStep limit f) c.flush d.flush := by
  rw [flush_of_steady h.free.2, flush_of_steady h.steady]
  exact .done () (h.call (.flush true) h.reader rfl)

theorem heard (h : Rationed inStep limit f c d) : Rationed inStep limit f c.heard d.heard := by
  rw [Console.heard, Console.heard, ← h.reader]
  exact h.call _ rfl rfl

theorem getByte (h : Rationed inStep limit f c d) :
    Outcome.Alike (Rationed inStep limit f) c.getByte d.getByte := by
  apply h.flush.bind
  intro _ c' d' h'
  exact alike_ask (fun _ _ h => h.reader) (fun _ _ h => h.heard) h'

/-- The one writer may be interrupted more often than the other. -/
theorem persist (h : Rationed inStep limit f c d) :
    Rationed inStep limit f c.persist d.persist := by
  refine ⟨⟨h.reader, ?_, ?_⟩, ?_, h.free, h.steady, h.refusal, ?_⟩
  · show Calls.withoutRefusals (List.replicate _ .refused ++ c.calls) =
      Calls.withoutRefusals (List.replicate _ .refused ++ d.calls)
    rw [Calls.withoutRefusals_refusals, Calls.withoutRefusals_refusals]
    exact h.calls
  · intro hstep
    show List.replicate c.writer.delay .refused ++ c.calls =
      List.replicate d.writer.delay .refused ++ d.calls
    rw [Writer.delay, Writer.delay, h.interruptions hstep, h.refusals hstep]
  · intro hstep
    exact congrArg List.tail (h.interruptions hstep)
  · rw [output_persist]
    exact h.room

/-- A byte is taken by both consoles, or the limit is reached and only one of them
takes it. -/
theorem putByte (h : Rationed inStep limit f c d) (lasting : f.isTransient = false) (b : UInt8) :
    ∃ c', c.putByte b = .done () c' ∧ c'.output = c.output ++ [b] ∧
      ((∃ d', d.putByte b = .done () d' ∧ Rationed inStep limit f c' d') ∨
        c.output.length = limit ∧ ∃ d', d.putByte b = .failed f d') := by
  have hput := putByte_of_room_eq_none h.free.1 b
  obtain ⟨houtput, -⟩ := output_of_putByte_eq_done hput
  refine ⟨_, hput, houtput, ?_⟩
  have hlater := h.persist
  obtain ⟨room, hroom, hsum⟩ := h.room
  rw [putByte_eq, Writer.takes, hroom, h.refusal, lasting]
  cases room with
  | zero => exact .inr ⟨hsum, _, rfl⟩
  | succ room =>
    refine .inl ⟨_, if_neg (by simp), hlater.toSameButWriter.call _ h.reader, hlater.interruptions,
      ⟨?_, h.free.2⟩, h.steady, h.refusal, room, ?_, ?_⟩
    · simp [Writer.take, h.free.1]
    · simp [Writer.take, hroom]
    · rw [houtput, List.length_append, List.length_singleton]
      omega

end Rationed

end Console

/-! ## Machines -/

namespace Machine

open Outcome
open Console (Rationed)

variable {α β : Type} {inStep : Prop} {code : Code} {limit : Nat} {f : IoFault} {m u : Machine}

/-- The second call came to the same as the first one, or was cut off: it failed at
an operation that writes, after `limit` bytes, and the first one, if it returns, has
written these and at least one more. -/
inductive Curbed (inStep : Prop) (code : Code) (limit : Nat) (f : IoFault) :
    Outcome RunError Machine α → Outcome RunError Machine α → Prop
  | alike {o o' : Outcome RunError Machine α} :
      Alike (Coupled (Rationed inStep limit f)) o o' → Curbed inStep code limit f o o'
  | cut {o : Outcome RunError Machine α} {t : Machine} {n : Nat} :
      code[t.pc]? = some (.run .write n) → t.console.output.length = limit →
      (∀ s, o.state? = some s → ∃ b, t.console.output ++ [b] <+: s.console.output) →
      Curbed inStep code limit f o (.failed (.io f) t)

/-- A call in two parts is cut off in one of them, if the second part does not take
back what was written in the first one. -/
theorem Curbed.bind {o o' : Outcome RunError Machine α}
    {next next' : α → Machine → Outcome RunError Machine β} (h : Curbed inStep code limit f o o')
    (hnext : ∀ a s t, Coupled (Rationed inStep limit f) s t →
      Curbed inStep code limit f (next a s) (next' a t))
    (grows : ∀ a s s', (next a s).state? = some s' → s.console.output <+: s'.console.output) :
    Curbed inStep code limit f (o.bind next) (o'.bind next') := by
  cases h with
  | alike halike =>
    cases halike with
    | done a hst => exact hnext a _ _ hst
    | failed e hst => exact .alike (.failed e hst)
    | unfinished => exact .alike .unfinished
  | cut hop hfull hbeyond =>
    refine .cut hop hfull ?_
    intro s' hs'
    rcases Outcome.of_state?_bind hs' with ⟨e, hfailed⟩ | ⟨a, s, hdone, hrest⟩
    · exact hbeyond s' (by rw [hfailed]; rfl)
    · obtain ⟨b, hb⟩ := hbeyond s (by rw [hdone]; rfl)
      exact ⟨b, hb.trans (grows a s s' hrest)⟩

/-- Writing a cell any number of times comes to the same, or is cut off. -/
theorem curbed_writeCell (coupled : Coupled (Rationed inStep limit f) m u)
    (lasting : f.isTransient = false) {k : Nat} (hop : code[u.pc]? = some (.run .write k))
    (n : Nat) : Curbed inStep code limit f (m.writeCell n) (u.writeCell n) := by
  induction n generalizing m u with
  | zero => exact .alike (.done () coupled)
  | succ n ih =>
    rw [writeCell, writeCell, coupled.cell]
    obtain ⟨c', hput, houtput, ⟨d', hput', hrationed⟩ | ⟨hfull, d', hput'⟩⟩ :=
      coupled.console.putByte lasting u.cell
    · rw [hput, hput']
      exact ih (coupled.withConsole hrationed) hop
    · rw [hput, hput']
      have hsame : d'.output = m.console.output :=
        (Console.output_of_putByte_eq_failed hput').1.trans coupled.console.output.symm
      refine .cut hop ?_ ?_
      · show d'.output.length = limit
        rw [hsame, hfull]
      · intro s hs
        refine ⟨u.cell, ?_⟩
        have hgrows : c'.output <+: s.console.output := (exchanges_of_writeCell hs).output
        rw [houtput, ← hsame] at hgrows
        exact hgrows

/-- An operation comes to the same, or is cut off. -/
theorem curbed_exec (coupled : Coupled (Rationed inStep limit f) m u)
    (lasting : f.isTransient = false) {op : Op} (hop : code[u.pc]? = some op) :
    Curbed inStep code limit f (m.exec op) (u.exec op) := by
  by_cases hread : ∃ n, op = .run .read n
  · obtain ⟨n, rfl⟩ := hread
    exact .alike (coupled.readCell (fun _ _ => Rationed.getByte) n)
  · by_cases hwrite : ∃ n, op = .run .write n
    · obtain ⟨n, rfl⟩ := hwrite
      exact curbed_writeCell coupled lasting hop n
    · exact .alike (coupled.exec_quiet (not_exists.mp hread) (not_exists.mp hwrite))

theorem curbed_step (coupled : Coupled (Rationed inStep limit f) m u)
    (lasting : f.isTransient = false) (code : Code) :
    Curbed inStep code limit f (m.step code) (u.step code) := by
  rw [step, step, coupled.pc, coupled.ptr, coupled.tape]
  cases hop : code[u.pc]? with
  | none => exact .alike (.done false coupled)
  | some op =>
    dsimp only
    split
    · apply (curbed_exec coupled lasting hop).bind
      · intro _ s t hst
        exact .alike (.done true hst.tick)
      · intro _ s s' hs'
        cases hs'
        exact List.prefix_refl _
    · exact .alike (.failed _ coupled)

/-- One operation and then the others, as a call in two parts. -/
theorem advance_succ (code : Code) (n : Nat) (m : Machine) :
    m.advance code (n + 1) =
      (m.step code).bind fun more u => if more then u.advance code n else .done () u := by
  rw [advance]
  cases m.step code with
  | done more u => cases more <;> rfl
  | failed e u => rfl
  | unfinished => rfl

theorem curbed_advance (coupled : Coupled (Rationed inStep limit f) m u)
    (lasting : f.isTransient = false) (code : Code) (n : Nat) :
    Curbed inStep code limit f (m.advance code n) (u.advance code n) := by
  induction n generalizing m u with
  | zero => exact .alike (.done () coupled)
  | succ n ih =>
    rw [advance_succ, advance_succ]
    apply (curbed_step coupled lasting code).bind
    · intro more s t hst
      split
      · exact ih hst
      · exact .alike (.done () hst)
    · intro more s s' hs'
      split at hs'
      · exact (exchanges_of_advance hs').output
      · cases hs'
        exact List.prefix_refl _

theorem curbed_runAtMost (coupled : Coupled (Rationed inStep limit f) m u)
    (lasting : f.isTransient = false) (code : Code) (k : Nat) :
    Curbed inStep code limit f (m.runAtMost code k) (u.runAtMost code k) := by
  apply (curbed_advance coupled lasting code k).bind
  · intro _ s t hst
    have hflush : Alike (Coupled (Rationed inStep limit f)) s.flush t.flush := by
      apply hst.console.flush.within
      intro c d hcd
      exact hst.withConsole hcd
    apply Curbed.alike
    apply hflush.bind
    intro _ s' t' hst'
    rw [hst'.atEnd code]
    exact .done _ hst'
  · intro _ s s' hs'
    rcases Outcome.of_state?_bind hs' with ⟨e, hfailed⟩ | ⟨_, v, hflush, hanswer⟩
    · exact (exchanges_of_flush (by rw [hfailed]; rfl)).output
    · cases hanswer
      exact (exchanges_of_flush (by rw [hflush]; rfl)).output

end Machine

namespace Machine.Curbed

open Outcome

variable {α : Type} {inStep : Prop} {code : Code} {limit : Nat} {f : IoFault} {m : Machine}
  {o o' : Outcome RunError Machine α}

/-- If no more came out than there was room for, nothing was cut off. -/
theorem alike_of_le (h : Curbed inStep code limit f o o') (hm : o.state? = some m)
    (hle : m.console.output.length ≤ limit) :
    Alike (Coupled (Console.SameButWriter inStep)) o o' := by
  cases h with
  | alike halike =>
    apply halike.mono
    intro s t hst
    exact ⟨hst.tape, hst.ptr, hst.pc, hst.steps, hst.console.toSameButWriter⟩
  | cut hop hfull hbeyond =>
    obtain ⟨b, hb⟩ := hbeyond m hm
    have hlonger := hb.length_le
    rw [List.length_append, List.length_singleton, hfull] at hlonger
    omega

/-- If more came out than there was room for, the beginning of it was written. -/
theorem exists_of_lt (h : Curbed inStep code limit f o o') (hm : o.state? = some m)
    (hlt : limit < m.console.output.length) :
    ∃ t n, o' = .failed (.io f) t ∧ t.console.output = m.console.output.take limit ∧
      code[t.pc]? = some (.run .write n) := by
  cases h with
  | alike halike =>
    -- the limited writer has taken all of it, and took no more than it may
    obtain ⟨s, -, hms⟩ := halike.exists_of_state? hm
    obtain ⟨room, -, hsum⟩ := hms.console.room
    omega
  | @cut t n hop hfull hbeyond =>
    obtain ⟨b, hb⟩ := hbeyond m hm
    have hbegins : t.console.output <+: m.console.output := (List.prefix_append _ _).trans hb
    refine ⟨t, n, rfl, ?_, hop⟩
    rw [← hfull]
    exact List.prefix_iff_eq_take.mp hbegins

end Machine.Curbed

/-! ## Listings -/

namespace Writer

/-- Taking first `a` and then `b` bytes is taking `a + b`. -/
theorem takes_add {w : Writer} {a : Nat} (h : w.takes a = a) (b : Nat) :
    w.takes (a + b) = a + (w.take a).takes b := by
  unfold takes take at *
  cases hroom : w.room with
  | none => rfl
  | some r =>
    rw [hroom] at h
    dsimp only [Option.map_some] at h ⊢
    omega

/-- A writer that cannot take all of one piece takes no more of the next. -/
theorem takes_add_of_lt {w : Writer} {a : Nat} (h : w.takes a < a) (b : Nat) :
    w.takes (a + b) = w.takes a := by
  unfold takes at *
  cases hroom : w.room with
  | none =>
    rw [hroom] at h
    exact absurd h (Nat.lt_irrefl a)
  | some r =>
    rw [hroom] at h
    dsimp only at h ⊢
    omega

/-- A writer that took only the beginning is full. -/
theorem takes_take_of_lt {w : Writer} {a : Nat} (h : w.takes a < a) (b : Nat) :
    (w.take (w.takes a)).takes b = 0 := by
  unfold takes take at *
  cases hroom : w.room with
  | none =>
    rw [hroom] at h
    exact absurd h (Nat.lt_irrefl a)
  | some r =>
    rw [hroom] at h
    dsimp only [Option.map_some] at h ⊢
    omega

theorem takes_congr {w w' : Writer} (h : w.room = w'.room) (n : Nat) : w.takes n = w'.takes n := by
  rw [takes, takes, h]

end Writer

namespace Console

variable {bytes : List UInt8} {c d e : Console}

/-- Between `c` and `d` the writer took the beginning of `bytes`, as far as it had
room, and nothing was flushed. -/
structure Wrote (bytes : List UInt8) (c d : Console) : Prop where
  output : d.output = c.output ++ bytes.take (c.writer.takes bytes.length)
  flushes : d.flushes = c.flushes
  steady : d.writer.flushes = c.writer.flushes

/-- One write. -/
theorem wrote_write (bytes : List UInt8) (c : Console) : Wrote bytes c (c.write bytes).2 := by
  refine ⟨?_, ?_, rfl⟩
  · show Calls.output ((if c.writer.takes bytes.length = 0 then Call.refused
      else .wrote (bytes.take (c.writer.takes bytes.length))) :: c.persist.calls) = _
    rw [← c.output_persist]
    split
    · rename_i hzero
      rw [hzero, List.take_zero, List.append_nil]
      exact Calls.output_refused _
    · exact Calls.output_wrote _ _
  · show Calls.flushes ((if c.writer.takes bytes.length = 0 then Call.refused
      else .wrote (bytes.take (c.writer.takes bytes.length))) ::
        (List.replicate c.writer.delay .refused ++ c.calls)) = _
    split
    · rw [Calls.flushes_refused, Calls.flushes_refusals]
      rfl
    · rw [Calls.flushes_wrote, Calls.flushes_refusals]
      rfl

/-- A second write behind one that took only the beginning gets nothing. -/
theorem Wrote.full (h : Wrote bytes c d) {rest : List UInt8} (h' : Wrote rest d e)
    (full : d.writer.takes rest.length = 0) : Wrote bytes c e := by
  refine ⟨?_, h'.flushes.trans h.flushes, h'.steady.trans h.steady⟩
  rw [h'.output, full, List.take_zero, List.append_nil, h.output]

/-- A full writer that does not ask to be tried again ends the writing. -/
theorem put_of_full (pending : bytes ≠ []) (full : c.writer.takes bytes.length = 0)
    (lasting : c.writer.refusal.isTransient = false) :
    c.put bytes = .failed c.writer.refusal (c.write bytes).2 := by
  cases bytes with
  | nil => exact absurd rfl pending
  | cons b bytes =>
    have hwrite : c.write (b :: bytes) = (0, (c.write (b :: bytes)).2) := Prod.ext full rfl
    rw [put_cons, hwrite]
    show (if c.writer.refusal.isTransient then _ else _) = _
    rw [lasting]
    rfl

/-- What the first write did not take is left to be written. -/
theorem put_of_takes {k : Nat} (h : c.writer.takes bytes.length = k + 1) :
    c.put bytes = (c.write bytes).2.put (bytes.drop (k + 1)) := by
  cases bytes with
  | nil =>
    have hle := c.writer.takes_le 0
    rw [List.length_nil] at h
    omega
  | cons b bytes =>
    have hwrite : c.write (b :: bytes) = (k + 1, (c.write (b :: bytes)).2) := Prod.ext h rfl
    rw [put_cons, hwrite]
    rfl

/-- Writing comes to an end if a full writer does not ask to be tried again, or if
there is no such thing as a full writer. -/
theorem exists_put (bytes : List UInt8) (c : Console)
    (settles : c.writer.room = none ∨ c.writer.refusal.isTransient = false) :
    ∃ d, Wrote bytes c d ∧
      (c.writer.takes bytes.length = bytes.length →
        c.put bytes = .done () d ∧ d.writer.room = (c.writer.take bytes.length).room ∧
          d.writer.refusal = c.writer.refusal) ∧
      (c.writer.takes bytes.length < bytes.length →
        c.put bytes = .failed c.writer.refusal d) := by
  by_cases hfits : c.writer.takes bytes.length = bytes.length
  · cases bytes with
    | nil =>
      refine ⟨c, ⟨by simp, rfl, rfl⟩, ?_, fun hlt => absurd hlt (Nat.not_lt_zero _)⟩
      intro _
      rw [List.length_nil, Writer.take_zero]
      exact ⟨rfl, rfl, rfl⟩
    | cons b bytes =>
      refine ⟨_, wrote_write (b :: bytes) c, ?_, fun hlt => absurd hfits (Nat.ne_of_lt hlt)⟩
      intro _
      refine ⟨?_, ?_, rfl⟩
      · rw [put_of_takes hfits, ← List.length_cons, List.drop_length]
        rfl
      · show (c.writer.take (c.writer.takes (b :: bytes).length)).room = _
        rw [hfits]
  · have hlt : c.writer.takes bytes.length < bytes.length :=
      Nat.lt_of_le_of_ne (c.writer.takes_le _) hfits
    have hlasting : c.writer.refusal.isTransient = false := by
      rcases settles with hnone | hlasting
      · exact absurd (Writer.takes_of_room_eq_none hnone _) hfits
      · exact hlasting
    cases htakes : c.writer.takes bytes.length with
    | zero =>
      refine ⟨(c.write bytes).2, wrote_write bytes c, ?_, ?_⟩
      · intro h
        omega
      · intro _
        exact put_of_full (List.ne_nil_of_length_pos (by omega)) htakes hlasting
    | succ k =>
      -- the writer is full when the rest is offered
      have hfull : (c.write bytes).2.writer.takes (bytes.drop (k + 1)).length = 0 :=
        Writer.takes_take_of_lt hlt _
      have hrest : bytes.drop (k + 1) ≠ [] := by
        apply List.ne_nil_of_length_pos
        rw [List.length_drop]
        omega
      refine ⟨_, (wrote_write bytes c).full (wrote_write _ _) hfull, ?_, ?_⟩
      · intro h
        omega
      · intro _
        rw [put_of_takes htakes]
        exact put_of_full hrest hfull hlasting

end Console

namespace Code

/-- Lines in a row are written like one text. -/
theorem exists_putLines (lines : List (List UInt8)) (c : Console)
    (settles : c.writer.room = none ∨ c.writer.refusal.isTransient = false) :
    ∃ d, Console.Wrote lines.flatten c d ∧
      (c.writer.takes lines.flatten.length = lines.flatten.length →
        putLines lines c = .done () d) ∧
      (c.writer.takes lines.flatten.length < lines.flatten.length →
        putLines lines c = .failed c.writer.refusal d) := by
  induction lines generalizing c with
  | nil =>
    refine ⟨c, ⟨?_, rfl, rfl⟩, fun _ => rfl, fun h => absurd h (Nat.not_lt_zero _)⟩
    rw [List.flatten_nil, List.take_nil, List.append_nil]
  | cons line lines ih =>
    obtain ⟨d, hd, hfits, hfull⟩ := c.exists_put line settles
    rw [putLines, List.flatten_cons, List.length_append]
    by_cases hline : c.writer.takes line.length = line.length
    · obtain ⟨hput, hroom, hrefusal⟩ := hfits hline
      have settles' : d.writer.room = none ∨ d.writer.refusal.isTransient = false := by
        rw [hroom, hrefusal]
        refine settles.imp ?_ id
        intro hnone
        rw [Writer.take, hnone]
        rfl
      obtain ⟨last, hlast, hdone, hfailed⟩ := ih d settles'
      rw [Writer.takes_add hline, ← Writer.takes_congr hroom, hput]
      refine ⟨last, ⟨?_, hlast.flushes.trans hd.flushes, hlast.steady.trans hd.steady⟩, ?_, ?_⟩
      · rw [hlast.output, hd.output, hline, List.take_length, List.length_append,
          Writer.takes_add hline, ← Writer.takes_congr hroom, List.take_length_add_append,
          List.append_assoc]
      · intro h
        exact hdone (by omega)
      · intro h
        rw [← hrefusal]
        exact hfailed (by omega)
    · have hlt : c.writer.takes line.length < line.length := by
        have := c.writer.takes_le line.length
        omega
      have hsame := Writer.takes_add_of_lt hlt lines.flatten.length
      rw [hsame, hfull hlt]
      refine ⟨d, ⟨?_, hd.flushes, hd.steady⟩, ?_, fun _ => rfl⟩
      · rw [hd.output, List.length_append, hsame,
          List.take_append_of_le_length (Nat.le_of_lt hlt)]
      · intro h
        omega

/-- A listing is written as far as there is room for it, and flushed if it is
written in full. -/
theorem exists_print (code : Code) (c : Console) (steady : c.writer.flushes = none)
    (settles : c.writer.room = none ∨ c.writer.refusal.isTransient = false) :
    ∃ d, d.output = c.output ++ code.listing.take (c.writer.takes code.listing.length) ∧
      (c.writer.takes code.listing.length = code.listing.length →
        code.print c = .done () d ∧ d.flushes = c.flushes + 1) ∧
      (c.writer.takes code.listing.length < code.listing.length →
        code.print c = .failed c.writer.refusal d) := by
  obtain ⟨d, hd, hdone, hfailed⟩ := exists_putLines (linesFrom 0 code.toList) c settles
  by_cases hfits : c.writer.takes code.listing.length = code.listing.length
  · refine ⟨{ d with calls := .flush true :: d.calls }, hd.output, ?_, ?_⟩
    · intro _
      refine ⟨?_, ?_⟩
      · rw [print, hdone hfits, Outcome.bind_done,
          Console.flush_of_steady (hd.steady.trans steady)]
      · rw [← hd.flushes]
        exact Calls.flushes_flush d.calls
    · intro hlt
      omega
  · refine ⟨d, hd.output, fun h => absurd h hfits, ?_⟩
    intro hlt
    rw [print, hfailed hlt]
    rfl

end Code

/-- **A writer that gets full has the beginning.** Compare a limited run with a writer
that never fails, of which it is assumed that it returns, and with one that takes
`limit` bytes and then fails for good, both without failing flushes. If what comes
out of the one fits into the other, the runs come to the same, up to how often each
writer is interrupted. If not, the second one fails at an operation that writes, and
the first `limit` bytes came out. The same holds of listings, which are flushed once
if they fit. -/
theorem short_writer_gets_beginning {code : Code} {r : Reader} {w w' : Writer} {limit : Nat}
    (free : w.Reliable) (short : w'.room = some limit) (steady : w'.flushes = none)
    (lasting : w'.refusal.isTransient = false) :
    (∀ (size k : Nat) (m : Machine),
      ((Machine.start size { reader := r, writer := w }).runAtMost code k).state? = some m →
      (m.console.output.length ≤ limit →
        Outcome.Alike
          (Machine.Coupled (Console.SameButWriter (w.interruptions = w'.interruptions)))
          ((Machine.start size { reader := r, writer := w }).runAtMost code k)
          ((Machine.start size { reader := r, writer := w' }).runAtMost code k)) ∧
      (limit < m.console.output.length →
        ∃ t n, (Machine.start size { reader := r, writer := w' }).runAtMost code k =
            .failed (.io w'.refusal) t ∧
          t.console.output = m.console.output.take limit ∧
          code[t.pc]? = some (.run .write n))) ∧
    (∃ d, code.print { writer := w } = .done () d ∧ d.output = code.listing) ∧
    ∃ d, (code.print { writer := w' }).state? = some d ∧ d.output = code.listing.take limit ∧
      (code.listing.length ≤ limit → code.print { writer := w' } = .done () d ∧ d.flushes = 1) ∧
      (limit < code.listing.length → code.print { writer := w' } = .failed w'.refusal d) := by
  refine ⟨?_, ?_, ?_⟩
  · intro size k m hm
    have coupled : Machine.Coupled
        (Console.Rationed (w.interruptions = w'.interruptions) limit w'.refusal)
        (Machine.start size { reader := r, writer := w })
        (Machine.start size { reader := r, writer := w' }) :=
      ⟨rfl, rfl, rfl, rfl, ⟨rfl, rfl, fun _ => rfl⟩, id, free, steady, rfl, limit, short,
        Nat.zero_add limit⟩
    have hcurbed := Machine.curbed_runAtMost coupled lasting code k
    exact ⟨hcurbed.alike_of_le hm, hcurbed.exists_of_lt hm⟩
  · obtain ⟨d, houtput, hdone, -⟩ := code.exists_print { writer := w } free.2 (.inl free.1)
    have hfits := Writer.takes_of_room_eq_none free.1 code.listing.length
    refine ⟨d, (hdone hfits).1, ?_⟩
    rw [houtput, hfits, List.take_length]
    rfl
  · obtain ⟨d, houtput, hdone, hfailed⟩ :=
      code.exists_print { writer := w' } steady (.inr lasting)
    have htakes : w'.takes code.listing.length = min limit code.listing.length := by
      rw [Writer.takes, short]
    have htake : d.output = code.listing.take limit := by
      rw [houtput, htakes, ← List.take_eq_take_min]
      rfl
    by_cases hfits : code.listing.length ≤ limit
    · have hd := hdone (by rw [htakes]; omega)
      refine ⟨d, by rw [hd.1]; rfl, htake, fun _ => hd, ?_⟩
      intro hlt
      omega
    · have hd := hfailed (by rw [htakes]; omega)
      exact ⟨d, by rw [hd]; rfl, htake, fun hle => absurd hle hfits, fun _ => hd⟩

/-- Three bytes for a writer that takes two, is interrupted in front of the first and of
the third, and then takes nothing. -/
theorem short_writer_gets_beginning_silent :
    Writer.Reliable {} ∧
    ((Machine.start 1 {}).runAtMost #[.run .inc 65, .run .write 3] 9).state? =
      some { tape := ⟨#[65]⟩, pc := 2, steps := 2,
             console := { calls := [.flush true, .wrote [65], .wrote [65], .wrote [65]] } } ∧
    ∃ t n, (Machine.start 1 { writer := {
        room := some 2, silent := true, interruptions := [1, 0, 2] } }).runAtMost
        #[.run .inc 65, .run .write 3] 9 = .failed (.io .nothingTaken) t ∧
      t.console.output = [65, 65] ∧
      #[Op.run .inc 65, .run .write 3][t.pc]? = some (.run .write n) := by
  have free : Writer.Reliable {} := ⟨rfl, rfl⟩
  have ends : ((Machine.start 1 {}).runAtMost #[.run .inc 65, .run .write 3] 9).state? =
      some { tape := ⟨#[65]⟩, pc := 2, steps := 2,
             console := { calls := [.flush true, .wrote [65], .wrote [65], .wrote [65]] } } := rfl
  have limited := (@short_writer_gets_beginning #[.run .inc 65, .run .write 3] {} {}
    { room := some 2, silent := true, interruptions := [1, 0, 2] } 2 free rfl rfl rfl).1 1 9 _ ends
  exact ⟨free, ends, limited.2 (by decide)⟩

end Brainfuck
