import Brainfuck.Proofs.Coupling
import Brainfuck.Proofs.Footing
import Brainfuck.Proofs.Serving
import Mathlib.Data.List.Infix
import Mathlib.Logic.Relation

/-!
# What a machine says to its console

A machine uses its console in three ways only: it flushes, it reads a byte and it
writes a byte. What holds of these holds of everything that machines do:

* **exchanges** — a command changes the console by exchanges in a row
  (`Machine.exchanges_of_perform`), and so do commands in a row
  (`Machine.exchanges_of_leads`). Operations that neither read nor write leave the
  console alone (`Machine.console_of_exec_quiet`);
* **output grows** — no exchange takes back what was written
  (`Console.Exchanges.output`);
* **order** — reading a byte is one flush and then reads, all but the last of which
  were interrupted (`Calls.OneByte`). So every read comes after a flush that
  succeeded, with no write between them (`Console.Exchanges.orderly`).

The main result is `reads_follow_flushes`.
-/

namespace Brainfuck

/-! ## The order of calls -/

namespace Calls

variable {call : Call} {calls earlier : Calls}

/-- The last calls were a flush that succeeded and then nothing but reads that
were interrupted. -/
def Prompted (calls : Calls) : Prop :=
  ∃ retries earlier, calls = retries ++ .flush true :: earlier ∧
    ∀ call ∈ retries, call.isInterruption = true

/-- Every read comes after a flush that succeeded, with no write between them and
no read either, except for those that were interrupted. -/
def Orderly (calls : Calls) : Prop :=
  ∀ later reply earlier, calls = later ++ .read reply :: earlier → Prompted earlier

/-- The calls by which a byte is read, made after `earlier`: a flush that fails and
nothing more, or one flush that succeeds and then reads until one of them is not
interrupted. -/
inductive OneByte (earlier : Calls) : Calls → Prop
  | unflushed : OneByte earlier (.flush false :: earlier)
  | asked (retries : Calls) (reply : Reply) :
      (∀ call ∈ retries, call.isInterruption = true) →
      (Call.read reply).isInterruption = false →
      OneByte earlier (.read reply :: (retries ++ .flush true :: earlier))

namespace Orderly

theorem nil : Orderly [] := by
  intro later reply earlier h
  cases later <;> cases h

/-- One more call keeps the order, if it is no read or a read that is prompted. -/
theorem cons (orderly : Orderly calls) (hcall : ∀ reply, call = .read reply → Prompted calls) :
    Orderly (call :: calls) := by
  intro later reply earlier h
  cases later with
  | nil =>
    injection h with hread hearlier
    rw [← hearlier]
    exact hcall reply hread
  | cons last later =>
    injection h with _ hcalls
    exact orderly later reply earlier hcalls

theorem cons_of_ne_read (orderly : Orderly calls) (h : ∀ reply, call ≠ .read reply) :
    Orderly (call :: calls) :=
  orderly.cons fun reply hread => absurd hread (h reply)

theorem refusals (orderly : Orderly calls) (n : Nat) :
    Orderly (List.replicate n .refused ++ calls) := by
  induction n with
  | zero => exact orderly
  | succ n ih => exact ih.cons_of_ne_read (by simp)

theorem oneByte (orderly : Orderly earlier) (hone : OneByte earlier calls) : Orderly calls := by
  cases hone with
  | unflushed => exact orderly.cons_of_ne_read (by simp)
  | asked retries reply hretries =>
    have hflush : Orderly (.flush true :: earlier) := orderly.cons_of_ne_read (by simp)
    -- all the reads are prompted by the one flush
    have hretried : Orderly (retries ++ .flush true :: earlier) := by
      induction retries with
      | nil => exact hflush
      | cons call retries ih =>
        have hrest : ∀ call ∈ retries, call.isInterruption = true := by
          intro call hmem
          exact hretries call (List.mem_cons_of_mem _ hmem)
        exact (ih hrest).cons fun _ _ => ⟨retries, earlier, rfl, hrest⟩
    exact hretried.cons fun _ _ => ⟨retries, earlier, rfl, hretries⟩

end Orderly

end Calls

/-! ## Exchanges -/

/-- Asking returns, whatever the answer. -/
theorem Reply.state?_outcome (reply : Reply) (c : Console) :
    (reply.outcome c).state? = some c := by
  unfold outcome
  split <;> rfl

namespace Console

variable {c d : Console}

/-- What a machine does to its console at a time, however it ends. -/
inductive Exchange (c d : Console) : Prop
  | flush : c.flush.state? = some d → Exchange c d
  | getByte : c.getByte.state? = some d → Exchange c d
  | putByte (b : UInt8) : (c.putByte b).state? = some d → Exchange c d

/-- Exchanges in a row. -/
abbrev Exchanges : Console → Console → Prop := Relation.ReflTransGen Exchange

/-- A flush makes one call and changes nothing else that calls depend on. -/
theorem exists_calls_of_flush (h : c.flush.state? = some d) :
    ∃ ok, d.calls = .flush ok :: c.calls := by
  unfold flush at h
  split at h
  · cases h
    exact ⟨true, rfl⟩
  · cases h
    exact ⟨false, rfl⟩

/-- A byte that was taken comes behind the others. -/
theorem output_of_putByte_eq_done {b : UInt8} {a : Unit} (h : c.putByte b = .done a d) :
    d.output = c.output ++ [b] ∧ d.reader = c.reader := by
  rw [putByte_eq] at h
  split at h
  · split at h <;> cases h
  · cases h
    refine ⟨?_, rfl⟩
    show Calls.output (.wrote [b] :: c.persist.calls) = _
    rw [Calls.output_wrote, ← c.output_persist]
    rfl

theorem output_of_putByte_eq_failed {b : UInt8} {f : IoFault} (h : c.putByte b = .failed f d) :
    d.output = c.output ∧ d.reader = c.reader := by
  rw [putByte_eq] at h
  split at h
  · split at h
    · cases h
    · cases h
      exact ⟨c.output_persist, rfl⟩
  · cases h

/-- Writing a byte is one call, which takes the byte or does not, after some that were
interrupted. -/
theorem calls_of_putByte {b : UInt8} (h : (c.putByte b).state? = some d) :
    ∃ n, d.calls = .wrote [b] :: (List.replicate n .refused ++ c.calls) ∨
      d.calls = .refused :: (List.replicate n .refused ++ c.calls) := by
  refine ⟨c.writer.delay, ?_⟩
  rw [putByte_eq] at h
  split at h
  · split at h
    · cases h
    · cases h
      exact .inr rfl
  · cases h
    exact .inl rfl

/-- Reading a byte comes to a failed flush, or to what asking comes to after a
flush that succeeds. -/
theorem getByte_cases (c : Console) :
    c.getByte = .failed c.writer.fault { c with calls := .flush false :: c.calls } ∨
      ∃ d, Asked { c with writer := c.writer.flush, calls := .flush true :: c.calls } d
          (.ofAtoms c.reader.atoms) ∧
        c.getByte = (Reply.ofAtoms c.reader.atoms).outcome d := by
  unfold getByte flush
  split
  · right
    exact exists_asked { c with writer := c.writer.flush, calls := .flush true :: c.calls }
  · exact .inl rfl

/-- Reading a byte brings nothing out. It takes the first atom, unless the flush
failed. -/
theorem of_getByte_state? (h : c.getByte.state? = some d) :
    d.output = c.output ∧
      (d.reader.atoms = c.reader.atoms ∧ c.getByte = .failed c.writer.fault d ∨
        d.reader.atoms = c.reader.atoms.tail ∧
          c.getByte = (Reply.ofAtoms c.reader.atoms).outcome d) := by
  rcases c.getByte_cases with hfailed | ⟨d', asked, hget⟩
  · rw [hfailed] at h
    cases h
    exact ⟨rfl, .inl ⟨rfl, hfailed⟩⟩
  · rw [hget, Reply.state?_outcome] at h
    cases h
    have houtput := asked.output
    exact ⟨houtput, .inr ⟨asked.atoms, hget⟩⟩

theorem atoms_of_getByte_eq_some {b : UInt8} (h : c.getByte = .done (some b) d) :
    c.reader.atoms = .byte b :: d.reader.atoms := by
  obtain ⟨-, ⟨-, hfailed⟩ | ⟨hatoms, hget⟩⟩ :=
    of_getByte_state? (c := c) (d := d) (by rw [h]; rfl)
  · rw [h] at hfailed
    cases hfailed
  · rw [h] at hget
    rw [hatoms]
    match c.reader.atoms, hget with
    | .byte b' :: rest, hget =>
      cases hget
      rfl

/-- A read that fails is the fault of the flush before it, or of the reader. -/
theorem atoms_of_getByte_eq_failed {f : IoFault} (h : c.getByte = .failed f d) :
    c.reader.atoms = d.reader.atoms ∨ c.reader.atoms = .fault f :: d.reader.atoms := by
  obtain ⟨-, ⟨hatoms, -⟩ | ⟨hatoms, hget⟩⟩ :=
    of_getByte_state? (c := c) (d := d) (by rw [h]; rfl)
  · exact .inl hatoms.symm
  · rw [h] at hget
    rw [hatoms]
    match c.reader.atoms, hget with
    | .fault f' :: rest, hget =>
      cases hget
      exact .inr rfl

/-- Reading a byte returns, and its calls are as they should be. -/
theorem exists_oneByte (c : Console) :
    ∃ d, c.getByte.state? = some d ∧ Calls.OneByte c.calls d.calls := by
  rcases c.getByte_cases with hfailed | ⟨d, asked, hget⟩
  · rw [hfailed]
    exact ⟨_, rfl, .unflushed⟩
  · refine ⟨d, ?_, ?_⟩
    · rw [hget, Reply.state?_outcome]
    · obtain ⟨retries, hcalls, hretries⟩ := asked.calls
      rw [hcalls]
      exact .asked retries _ hretries asked.final

theorem oneByte_of_getByte (h : c.getByte.state? = some d) : Calls.OneByte c.calls d.calls := by
  obtain ⟨d', hd', hone⟩ := c.exists_oneByte
  rw [h] at hd'
  cases hd'
  exact hone

namespace Exchange

/-- An exchange adds to the output or leaves it as it is. -/
theorem output (h : Exchange c d) : c.output <+: d.output := by
  cases h with
  | flush h =>
    obtain ⟨ok, hcalls⟩ := exists_calls_of_flush h
    rw [Console.output, Console.output, hcalls, Calls.output_flush]
  | getByte h =>
    rw [(of_getByte_state? h).1]
  | putByte b h =>
    obtain ⟨n, hcalls | hcalls⟩ := calls_of_putByte h
    · rw [Console.output, Console.output, hcalls, Calls.output_wrote, Calls.output_refusals]
      exact List.prefix_append _ _
    · rw [Console.output, Console.output, hcalls, Calls.output_refused, Calls.output_refusals]

theorem orderly (h : Exchange c d) (hc : c.calls.Orderly) : d.calls.Orderly := by
  cases h with
  | flush h =>
    obtain ⟨ok, hcalls⟩ := exists_calls_of_flush h
    rw [hcalls]
    exact hc.cons_of_ne_read (by simp)
  | getByte h => exact hc.oneByte (oneByte_of_getByte h)
  | putByte b h =>
    obtain ⟨n, hcalls | hcalls⟩ := calls_of_putByte h
    · rw [hcalls]
      exact (hc.refusals n).cons_of_ne_read (by simp)
    · rw [hcalls]
      exact (hc.refusals n).cons_of_ne_read (by simp)

/-- An exchange takes from the front of what the reader delivers, or nothing. -/
theorem atoms (h : Exchange c d) : d.reader.atoms <:+ c.reader.atoms := by
  cases h with
  | flush h =>
    unfold Console.flush at h
    split at h
    · cases h
      exact List.suffix_refl _
    · cases h
      exact List.suffix_refl _
  | getByte h =>
    rcases (of_getByte_state? h).2 with ⟨hatoms, -⟩ | ⟨hatoms, -⟩
    · rw [hatoms]
    · rw [hatoms]
      exact List.tail_suffix _
  | putByte b h =>
    cases hput : c.putByte b with
    | done a d' =>
      rw [hput] at h
      cases h
      rw [(output_of_putByte_eq_done hput).2]
    | failed f d' =>
      rw [hput] at h
      cases h
      rw [(output_of_putByte_eq_failed hput).2]
    | unfinished =>
      rw [hput] at h
      cases h

end Exchange

/-- What was written stays written. -/
theorem Exchanges.output (h : Exchanges c d) : c.output <+: d.output := by
  induction h with
  | refl => exact List.prefix_refl _
  | tail _ hlast ih => exact ih.trans hlast.output

/-- What was read does not come back. -/
theorem Exchanges.atoms (h : Exchanges c d) : d.reader.atoms <:+ c.reader.atoms := by
  induction h with
  | refl => exact List.suffix_refl _
  | tail _ hlast ih => exact hlast.atoms.trans ih

theorem Exchanges.orderly (h : Exchanges c d) (hc : c.calls.Orderly) : d.calls.Orderly := by
  induction h with
  | refl => exact hc
  | tail _ hlast ih => exact hlast.orderly ih

/-- After a flush that succeeds everything is flushed. -/
theorem flushed_of_flush (h : c.flush = .done () d) : d.flushed = d.calls.taken := by
  unfold flush at h
  split at h
  · cases h
    rw [Calls.taken_eq, Calls.output_flush, ← Calls.taken_eq]
    rfl
  · cases h

end Console

/-! ## Everything a machine does -/

namespace Machine

open Console (Exchanges)

variable {code : Code} {m u m' : Machine}

/-- An operation that neither reads nor writes leaves the console alone. -/
theorem console_of_exec_quiet {op : Op} (hread : ∀ n, op ≠ .run .read n)
    (hwrite : ∀ n, op ≠ .run .write n) (h : (m.exec op).state? = some u) :
    u.console = m.console := by
  have hself : Coupled (fun c _ => c = m.console) m m := .refl rfl
  exact ((hself.exec_quiet hread hwrite).of_state? h).console

theorem exchanges_of_readCell {n : Nat} (h : (m.readCell n).state? = some u) :
    Exchanges m.console u.console := by
  induction n generalizing m with
  | zero =>
    cases h
    exact .refl
  | succ n ih =>
    rw [readCell] at h
    split at h
    · rename_i b c hget
      have hrest : Exchanges c u.console :=
        ih (m := { m with tape := m.tape.set m.ptr b, console := c }) h
      exact .head (.getByte (by rw [hget]; rfl)) hrest
    · rename_i c hget
      cases h
      exact .single (.getByte (by rw [hget]; rfl))
    · rename_i f c hget
      cases h
      exact .single (.getByte (by rw [hget]; rfl))
    · cases h

theorem exchanges_of_writeCell {n : Nat} (h : (m.writeCell n).state? = some u) :
    Exchanges m.console u.console := by
  induction n generalizing m with
  | zero =>
    cases h
    exact .refl
  | succ n ih =>
    rw [writeCell] at h
    split at h
    · rename_i c hput
      have hrest : Exchanges c u.console := ih (m := { m with console := c }) h
      exact .head (.putByte m.cell (by rw [hput]; rfl)) hrest
    · rename_i f c hput
      cases h
      exact .single (.putByte m.cell (by rw [hput]; rfl))
    · cases h

theorem exchanges_of_exec {op : Op} (h : (m.exec op).state? = some u) :
    Exchanges m.console u.console := by
  by_cases hread : ∃ n, op = .run .read n
  · obtain ⟨n, rfl⟩ := hread
    exact exchanges_of_readCell h
  · by_cases hwrite : ∃ n, op = .run .write n
    · obtain ⟨n, rfl⟩ := hwrite
      exact exchanges_of_writeCell h
    · rw [console_of_exec_quiet (not_exists.mp hread) (not_exists.mp hwrite) h]

theorem exchanges_of_step (h : (m.step code).state? = some u) :
    Exchanges m.console u.console := by
  rcases of_step_state? h with rfl | ⟨op, v, -, -, hexec, hu⟩
  · exact .refl
  · have hv : Exchanges m.console v.console := exchanges_of_exec hexec
    rcases hu with rfl | rfl
    · exact hv
    · exact hv

theorem exchanges_of_advance {n : Nat} (h : (m.advance code n).state? = some u) :
    Exchanges m.console u.console := by
  induction n generalizing m with
  | zero =>
    cases h
    exact .refl
  | succ n ih =>
    rw [advance] at h
    cases hstep : m.step code with
    | done more v =>
      have hfirst : Exchanges m.console v.console := exchanges_of_step (by rw [hstep]; rfl)
      rw [hstep] at h
      cases more with
      | true => exact hfirst.trans (ih h)
      | false =>
        cases h
        exact hfirst
    | failed e v =>
      rw [hstep] at h
      cases h
      exact exchanges_of_step (by rw [hstep]; rfl)
    | unfinished =>
      rw [hstep] at h
      cases h

theorem exchanges_of_flush (h : m.flush.state? = some u) : Exchanges m.console u.console := by
  unfold flush at h
  cases hflush : m.console.flush with
  | done a c =>
    rw [hflush] at h
    cases h
    exact .single (.flush (by rw [hflush]; rfl))
  | failed f c =>
    rw [hflush] at h
    cases h
    exact .single (.flush (by rw [hflush]; rfl))
  | unfinished =>
    rw [hflush] at h
    cases h

/-- A command changes the console by exchanges, also if it fails. -/
theorem exchanges_of_perform {cmd : Command} (h : (cmd.perform code m).state? = some u) :
    Exchanges m.console u.console := by
  obtain ⟨n, v, hadvance, rfl | hflush⟩ := Command.of_perform_state? h
  · exact exchanges_of_advance hadvance
  · exact (exchanges_of_advance hadvance).trans (exchanges_of_flush hflush)

theorem exchanges_of_leads {cmds : List Command} (h : Leads code m cmds m') :
    Exchanges m.console m'.console := by
  induction h with
  | nil => exact .refl
  | cons hcmd _ ih => exact (exchanges_of_perform hcmd).trans ih

/-- Reading always returns. -/
theorem readCell_ne_unfinished (m : Machine) (n : Nat) : m.readCell n ≠ .unfinished := by
  induction n generalizing m with
  | zero =>
    intro h
    cases h
  | succ n ih =>
    intro h
    rw [readCell] at h
    split at h
    · exact ih _ h
    · cases h
    · cases h
    · rename_i hget
      obtain ⟨d, hd, -⟩ := m.console.exists_oneByte
      rw [hget] at hd
      cases hd

theorem step_ne_unfinished_of_read {n : Nat} (hop : code[m.pc]? = some (.run .read n)) :
    m.step code ≠ .unfinished := by
  intro h
  unfold step at h
  rw [hop] at h
  dsimp only at h
  split at h
  · have hread : m.exec (.run .read n) = m.readCell n := rfl
    rw [hread] at h
    cases hcell : m.readCell n with
    | done a u =>
      rw [hcell] at h
      cases h
    | failed e u =>
      rw [hcell] at h
      cases h
    | unfinished => exact readCell_ne_unfinished m n hcell
  · cases h

/-- After a flush that succeeds everything is flushed. -/
theorem flushed_of_flush (h : m.flush = .done () u) :
    u.console.flushed = u.console.calls.taken := by
  unfold flush at h
  cases hflush : m.console.flush with
  | done a c =>
    rw [hflush] at h
    cases h
    exact Console.flushed_of_flush hflush
  | failed f c =>
    rw [hflush] at h
    cases h
  | unfinished =>
    rw [hflush] at h
    cases h

end Machine

/-- **Output is flushed before input is read.** After any commands, failing ones
included, every read among the calls was made after a flush that succeeded, with no
write between the two; and when a limited or a full run succeeds, all bytes that
were taken are flushed. Reading one byte, from whatever console, is one flush and,
if that succeeds, reads until one of them is not interrupted. A step that does not
return is none that reads. -/
theorem reads_follow_flushes {code : Code} {size : Nat} {r : Reader} {w : Writer}
    {before : List Command} {m : Machine}
    (reached : (Machine.start size { reader := r, writer := w }).Leads code before m) :
    m.console.calls.Orderly ∧
    (∀ limit halted m', m.runAtMost code limit = .done halted m' →
      m'.console.flushed = m'.console.calls.taken) ∧
    (∀ fuel m', m.run code fuel = .done () m' → m'.console.flushed = m'.console.calls.taken) ∧
    (∀ c : Console, ∃ d, c.getByte.state? = some d ∧ Calls.OneByte c.calls d.calls) ∧
    ∀ n, code[m.pc]? = some (.run .read n) → m.step code ≠ .unfinished := by
  refine ⟨?_, ?_, ?_, ?_, ?_⟩
  · exact (Machine.exchanges_of_leads reached).orderly .nil
  · intro limit halted m' h
    obtain ⟨_, u, -, hrest⟩ := Outcome.of_bind_eq_done h
    obtain ⟨_, v, hflush, hanswer⟩ := Outcome.of_bind_eq_done hrest
    cases hanswer
    exact Machine.flushed_of_flush hflush
  · intro fuel m' h
    obtain ⟨last, -, -, hflush⟩ := Machine.of_run_eq_done h
    exact Machine.flushed_of_flush hflush
  · exact Console.exists_oneByte
  · intro n hop
    exact Machine.step_ne_unfinished_of_read hop

/-- A write that is interrupted once, then reads that meet an interruption, a byte, the
end of the input and a flush that fails. -/
theorem reads_follow_flushes_interrupted :
    (Machine.start 1 { reader := ⟨[.fail ⟨.interrupted, ""⟩, .data [7], .eof]⟩,
                       writer := { flushes := some 2, interruptions := [1] } }).Leads
      #[.run .write 1, .run .read 3, .run .read 1] [.runAtMost 3]
      { tape := ⟨#[7]⟩, pc := 2, steps := 2,
        console := {
          reader := ⟨[]⟩, writer := { flushes := some 0 },
          calls := [.flush false, .read (.bytes []), .flush true, .read (.bytes [7]),
            .read (.fault ⟨.interrupted, ""⟩), .flush true, .wrote [0], .refused] } } ∧
    Calls.Orderly [.flush false, .read (.bytes []), .flush true, .read (.bytes [7]),
      .read (.fault ⟨.interrupted, ""⟩), .flush true, .wrote [0], .refused] := by
  have reached : (Machine.start 1 { reader := ⟨[.fail ⟨.interrupted, ""⟩, .data [7], .eof]⟩,
                                    writer := { flushes := some 2, interruptions := [1] } }).Leads
      #[.run .write 1, .run .read 3, .run .read 1] [.runAtMost 3]
      { tape := ⟨#[7]⟩, pc := 2, steps := 2,
        console := {
          reader := ⟨[]⟩, writer := { flushes := some 0 },
          calls := [.flush false, .read (.bytes []), .flush true, .read (.bytes [7]),
            .read (.fault ⟨.interrupted, ""⟩), .flush true, .wrote [0], .refused] } } := by
    refine .cons ?_ (.nil _)
    decide +kernel
  exact ⟨reached, (reads_follow_flushes reached).1⟩

end Brainfuck
