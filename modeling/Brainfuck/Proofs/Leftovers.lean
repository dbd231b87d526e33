import Brainfuck.Proofs.Exchanges
import Brainfuck.Proofs.Resuming
import Brainfuck.Proofs.Safety

/-!
# What a failure leaves behind

A session goes on from where a failed operation stopped, so it matters what that
operation had done by then:

* **off the tape** — a move or a transfer to a cell that does not exist does
  nothing. A scan stays at the last cell that it found, from where the next move
  leaves the tape (`of_scanFor_eq_failed`, `Stranded`);
* **streams** — a write that fails has brought out some of its bytes
  (`WriteCutShort`), and a read that fails has stored the last byte that it got
  (`ReadCutShort`);
* **once more** — an operation that failed without any stream being at fault
  fails in the same way when it is tried again, and does nothing
  (`exec_again`). No command gets past it (`Stuck.perform`, `Stuck.leads`).

The main results are `failed_step_leaves` and `errors_are_lasting`.
-/

namespace Brainfuck

namespace Machine

variable {code : Code} {m u v : Machine} {e : RunError}

/-! ## Off the tape -/

theorem not_onTape_of_locate {offset : Int} (h : m.locate offset = .error e) :
    ¬ (0 ≤ (m.ptr : Int) + offset ∧ (m.ptr : Int) + offset < m.tape.size) := by
  intro hon
  simp [locate, hon] at h

theorem of_move_eq_failed {offset : Int} (h : m.move offset = .failed e u) :
    u = m ∧ m.locate offset = .error e := by
  unfold move at h
  split at h
  · cases h
  · rename_i hlocate
    cases h
    exact ⟨rfl, hlocate⟩

theorem of_transfer_eq_failed {offset : Int} (h : m.transfer offset = .failed e u) :
    u = m ∧ m.cell ≠ 0 ∧ m.locate offset = .error e := by
  unfold transfer at h
  dsimp only at h
  split at h
  · cases h
  · rename_i hcell
    split at h
    · cases h
    · rename_i hlocate
      cases h
      exact ⟨rfl, hcell, hlocate⟩

/-- `u` is `m` after `k` moves by `stride`, each of them from a cell that is not
zero. -/
structure Strode (stride : Int) (k : Nat) (m u : Machine) : Prop where
  same : u = { m with ptr := u.ptr }
  ptr : (u.ptr : Int) = m.ptr + k * stride
  nonzero : ∀ j < k, ∃ i : Nat, (i : Int) = m.ptr + j * stride ∧ m.tape.get i ≠ 0

namespace Strode

variable {stride : Int}

theorem refl (stride : Int) (m : Machine) : Strode stride 0 m m := by
  refine ⟨rfl, by simp, ?_⟩
  intro j hj
  omega

/-- One move comes before the others. -/
theorem step {k cell : Nat} (hcell : m.cell ≠ 0) (hlocate : m.locate stride = .ok cell)
    (rest : Strode stride k { m with ptr := cell } u) : Strode stride (k + 1) m u := by
  have hnext : (cell : Int) = m.ptr + stride := by
    unfold locate at hlocate
    dsimp only at hlocate
    split at hlocate
    · cases hlocate
      omega
    · cases hlocate
  have hptr := rest.ptr
  dsimp only at hptr
  refine ⟨rest.same, ?_, ?_⟩
  · push_cast
    rw [hptr, hnext, Int.add_mul]
    omega
  · intro j hj
    cases j with
    | zero => exact ⟨m.ptr, by simp, hcell⟩
    | succ j =>
      obtain ⟨i, hi, hget⟩ := rest.nonzero j (by omega)
      dsimp only at hi hget
      refine ⟨i, ?_, hget⟩
      push_cast
      rw [hi, hnext, Int.add_mul]
      omega

end Strode

/-- A scan that fails has gone on as far as there were cells, and none of them was
zero. -/
theorem of_scanFor_eq_failed {stride : Int} {fuel : Nat}
    (h : m.scanFor stride fuel = .failed e u) :
    (∃ k, Strode stride k m u) ∧ u.cell ≠ 0 ∧ u.locate stride = .error e := by
  induction fuel generalizing m with
  | zero => cases h
  | succ fuel ih =>
    rw [scanFor] at h
    split at h
    · cases h
    · rename_i hcell
      split at h
      · rename_i cell hlocate
        obtain ⟨⟨k, rest⟩, hlast⟩ := ih h
        exact ⟨⟨k + 1, .step hcell hlocate rest⟩, hlast⟩
      · rename_i hlocate
        cases h
        exact ⟨⟨0, .refl stride _⟩, hcell, hlocate⟩

/-- The scan came over cells that are not zero to another such cell, and its next
move leaves the tape. -/
structure Stranded (stride : Int) (m u : Machine) : Prop where
  strode : ∃ k, Strode stride k m u
  nonzero : u.cell ≠ 0
  edge : ¬ (0 ≤ (u.ptr : Int) + stride ∧ (u.ptr : Int) + stride < u.tape.size)

/-- The operation did nothing, except for the moves of a scan. -/
structure Untouched (op : Op) (m u : Machine) : Prop where
  tape : u.tape = m.tape
  console : u.console = m.console
  ptr : (∀ stride, op ≠ .scan stride) → u.ptr = m.ptr
  scan : ∀ stride, op = .scan stride → Stranded stride m u

theorem Untouched.refl {op : Op} (h : ∀ stride, op ≠ .scan stride) (m : Machine) :
    Untouched op m m :=
  ⟨rfl, rfl, fun _ => rfl, fun stride hscan => absurd hscan (h stride)⟩

theorem untouched_of_scan {stride : Int} (h : m.scan stride = .failed e u) :
    Untouched (.scan stride) m u := by
  obtain ⟨⟨k, strode⟩, hcell, hlocate⟩ := of_scanFor_eq_failed h
  refine ⟨?_, ?_, ?_, ?_⟩
  · rw [strode.same]
  · rw [strode.same]
  · intro hne
    exact absurd rfl (hne stride)
  · intro stride' hscan
    cases hscan
    exact ⟨⟨k, strode⟩, hcell, not_onTape_of_locate hlocate⟩

/-- An operation that fails without a stream being at fault did nothing, except for
the moves of a scan. -/
theorem untouched_of_exec {op : Op} (h : m.exec op = .failed e u) (own : e.cause? = none) :
    Untouched op m u := by
  cases op with
  | run a n =>
    cases a with
    | right =>
      obtain ⟨rfl, -⟩ := of_move_eq_failed h
      exact .refl (by simp) _
    | left =>
      obtain ⟨rfl, -⟩ := of_move_eq_failed h
      exact .refl (by simp) _
    | inc => cases h
    | dec => cases h
    | write =>
      obtain ⟨f, rfl⟩ := io_of_writeCell h
      cases own
    | read =>
      obtain ⟨f, rfl⟩ := io_of_readCell h
      cases own
  | jumpZero target => cases h
  | jumpNonzero target => cases h
  | clear => cases h
  | scan stride => exact untouched_of_scan h
  | transfer offset =>
    obtain ⟨rfl, -⟩ := of_transfer_eq_failed h
    exact .refl (by simp) _
  | trap =>
    cases h
    exact .refl (by simp) _

/-! ## Streams -/

/-- A write of `n` bytes that failed before the last of them. -/
structure WriteCutShort (n : Nat) (m u : Machine) : Prop where
  ptr : u.ptr = m.ptr
  tape : u.tape = m.tape
  reader : u.console.reader = m.console.reader
  wrote : ∃ j < n, u.console.output = m.console.output ++ List.replicate j m.cell

theorem writeCutShort_of_writeCell {n : Nat} (h : m.writeCell n = .failed e u) :
    WriteCutShort n m u := by
  induction n generalizing m with
  | zero => cases h
  | succ n ih =>
    rw [writeCell] at h
    split at h
    · rename_i c hput
      obtain ⟨houtput, hreader⟩ := Console.output_of_putByte_eq_done hput
      obtain ⟨hptr, htape, hrest, j, hj, hwrote⟩ := ih h
      refine ⟨hptr, htape, hrest.trans hreader, j + 1, Nat.succ_lt_succ hj, ?_⟩
      rw [hwrote]
      show c.output ++ List.replicate j m.cell = _
      rw [houtput, List.append_assoc, List.replicate_succ]
      rfl
    · rename_i f c hput
      obtain ⟨houtput, hreader⟩ := Console.output_of_putByte_eq_failed hput
      cases h
      exact ⟨rfl, rfl, hreader, 0, Nat.succ_pos n, by simpa using houtput⟩
    · cases h

/-- A read of `n` bytes that failed with `f` before the last of them. The bytes that
it got are no longer in the reader, and neither is the fault if it was the reader's. -/
structure ReadCutShort (n : Nat) (f : IoFault) (m u : Machine) : Prop where
  ptr : u.ptr = m.ptr
  others : ∀ i, i ≠ m.ptr → u.tape.get i = m.tape.get i
  output : u.console.output = m.console.output
  got : ∃ bytes : List UInt8, bytes.length < n ∧ u.cell = bytes.getLast?.getD m.cell ∧
    (m.console.reader.atoms = bytes.map .byte ++ u.console.reader.atoms ∨
      m.console.reader.atoms = bytes.map .byte ++ .fault f :: u.console.reader.atoms)

theorem readCutShort_of_readCell {n : Nat} {f : IoFault} (on : m.HasCell)
    (h : m.readCell n = .failed (.io f) u) : ReadCutShort n f m u := by
  induction n generalizing m with
  | zero => cases h
  | succ n ih =>
    rw [readCell] at h
    split at h
    · rename_i b c hget
      have hatoms := Console.atoms_of_getByte_eq_some hget
      have houtput := (Console.of_getByte_state? (c := m.console) (d := c) (by rw [hget]; rfl)).1
      obtain ⟨hptr, hothers, hrest, bytes, hlength, hcell, hleft⟩ :=
        ih (m := { m with tape := m.tape.set m.ptr b, console := c }) (on.setCell b) h
      refine ⟨hptr, ?_, hrest.trans houtput, b :: bytes, Nat.succ_lt_succ hlength, ?_, ?_⟩
      · intro i hi
        rw [hothers i hi]
        exact Tape.get_set_ne _ _ hi.symm
      · -- the byte is in the cell unless another one came after it
        have hset : ({ m with tape := m.tape.set m.ptr b, console := c } : Machine).cell = b :=
          Tape.get_set_self b on
        rw [hcell, hset, List.getLast?_cons]
        rfl
      · rw [hatoms]
        rcases hleft with hleft | hleft
        · exact .inl (congrArg (Atom.byte b :: ·) hleft)
        · exact .inr (congrArg (Atom.byte b :: ·) hleft)
    · cases h
    · rename_i f' c hget
      have hatoms := Console.atoms_of_getByte_eq_failed hget
      have houtput := (Console.of_getByte_state? (c := m.console) (d := c) (by rw [hget]; rfl)).1
      cases h
      exact ⟨rfl, fun _ _ => rfl, houtput, [], Nat.succ_pos n, rfl, hatoms⟩
    · cases h

/-- The operation was stopped by a stream: only the current cell may have changed, and
that only if it reads. -/
structure CutShort (op : Op) (f : IoFault) (m u : Machine) : Prop where
  talks : op.talks = true
  ptr : u.ptr = m.ptr
  others : ∀ i, i ≠ m.ptr → u.tape.get i = m.tape.get i
  write : ∀ n, op = .run .write n → WriteCutShort n m u
  read : ∀ n, op = .run .read n → ReadCutShort n f m u

theorem cutShort_of_exec {op : Op} {f : IoFault} (on : m.HasCell)
    (h : m.exec op = .failed (.io f) u) : CutShort op f m u := by
  have talks : op.talks = true := canCause_of_exec h
  match op, talks with
  | .run .write n, _ =>
    have cut : WriteCutShort n m u := writeCutShort_of_writeCell h
    refine ⟨rfl, cut.ptr, ?_, ?_, ?_⟩
    · intro i _
      rw [cut.tape]
    · intro n' hop
      cases hop
      exact cut
    · intro n' hop
      cases hop
  | .run .read n, _ =>
    have cut : ReadCutShort n f m u := readCutShort_of_readCell on h
    refine ⟨rfl, cut.ptr, cut.others, ?_, ?_⟩
    · intro n' hop
      cases hop
    · intro n' hop
      cases hop
      exact cut

/-! ## Once more -/

/-- An operation that failed without a stream being at fault fails again in the same
way and does nothing, whatever the console is by then. -/
theorem exec_again {op : Op} (on : m.HasCell) (h : m.exec op = .failed e u)
    (own : e.cause? = none) (c : Console) :
    ({ u with console := c } : Machine).exec op = .failed e { u with console := c } := by
  have hmove {offset : Int} (hfailed : m.move offset = .failed e u) :
      ({ u with console := c } : Machine).move offset = .failed e { u with console := c } := by
    obtain ⟨rfl, hlocate⟩ := of_move_eq_failed hfailed
    have hsame : ({ u with console := c } : Machine).locate offset = .error e := hlocate
    rw [move, hsame]
  cases op with
  | run a n =>
    cases a with
    | right => exact hmove h
    | left => exact hmove h
    | inc => cases h
    | dec => cases h
    | write =>
      obtain ⟨f, rfl⟩ := io_of_writeCell h
      cases own
    | read =>
      obtain ⟨f, rfl⟩ := io_of_readCell h
      cases own
  | jumpZero target => cases h
  | jumpNonzero target => cases h
  | clear => cases h
  | scan stride =>
    -- the scan is at the end of its way, so this time it does not move
    have hon : u.HasCell := on.scanFor (by rw [show m.scanFor stride m.tape.size = _ from h]; rfl)
    obtain ⟨-, hcell, hlocate⟩ := of_scanFor_eq_failed h
    have hsame : ({ u with console := c } : Machine).locate stride = .error e := hlocate
    have hpos : u.tape.size = u.tape.size - 1 + 1 := by
      unfold HasCell at hon
      omega
    show ({ u with console := c } : Machine).scanFor stride u.tape.size = _
    rw [hpos, scanFor, hsame]
    exact if_neg hcell
  | transfer offset =>
    obtain ⟨rfl, hcell, hlocate⟩ := of_transfer_eq_failed h
    have hsame : ({ u with console := c } : Machine).locate offset = .error e := hlocate
    show ({ u with console := c } : Machine).transfer offset = _
    rw [transfer, hsame]
    exact if_neg hcell
  | trap =>
    cases h
    rfl

/-- The next step fails with `e` and does nothing, whatever the console is. -/
def Stuck (code : Code) (e : RunError) (m : Machine) : Prop :=
  ∀ c : Console, ({ m with console := c } : Machine).step code =
    .failed e { m with console := c }

/-- A step that failed without a stream being at fault fails forever. -/
theorem stuck_of_step (h : m.step code = .failed e u) (own : e.cause? = none) :
    Stuck code e u := by
  intro c
  by_cases on : m.HasCell
  · obtain ⟨op, hop, hexec⟩ := of_step_eq_failed on h
    have hon : u.ptr < u.tape.size := on.exec (by rw [hexec]; rfl)
    rw [← pc_of_exec_eq_failed hexec] at hop
    unfold step
    dsimp only
    rw [hop]
    dsimp only
    rw [if_pos hon, exec_again on hexec own c]
    rfl
  · -- nothing can be executed on a tape without cells
    unfold step at h ⊢
    split at h
    · cases h
    · rename_i op hop
      rw [if_neg (show ¬ m.ptr < m.tape.size from on)] at h
      cases h
      dsimp only
      rw [hop]
      exact if_neg on

namespace Stuck

theorem withConsole (stuck : Stuck code e m) (c : Console) :
    Stuck code e { m with console := c } := stuck

theorem advance (stuck : Stuck code e m) {n : Nat} (hn : 0 < n) :
    m.advance code n = .failed e m := by
  obtain ⟨n, rfl⟩ : ∃ k, n = k + 1 := ⟨n - 1, by omega⟩
  rw [Machine.advance, show m.step code = .failed e m from stuck m.console]

/-- Every command that may execute an operation fails, and does nothing. -/
theorem perform (stuck : Stuck code e m) {cmd : Command} (hcmd : 0 < cmd.budget) :
    cmd.perform code m = .failed e m := by
  cases cmd with
  | step => exact stuck m.console
  | runAtMost limit =>
    have hfailed : m.advance code limit = .failed e m := stuck.advance hcmd
    rw [Command.perform, runAtMost, hfailed]
    rfl
  | run fuel =>
    have hfailed : m.advance code fuel = .failed e m := stuck.advance hcmd
    rw [Command.perform, run_of_advance_failed hfailed]
    rfl

/-- What a command leaves behind differs from the machine by one flush at most. -/
theorem of_perform_state? (stuck : Stuck code e m) {cmd : Command}
    (h : (cmd.perform code m).state? = some u) : u = m ∨ m.flush.state? = some u := by
  obtain ⟨n, v, hadvance, hv⟩ := Command.of_perform_state? h
  have hsame : v = m := by
    cases n with
    | zero =>
      cases hadvance
      rfl
    | succ n =>
      rw [stuck.advance (Nat.succ_pos n)] at hadvance
      cases hadvance
      rfl
  rw [hsame] at hv
  exact hv

/-- Commands in a row that may all execute an operation fail one after the other. -/
theorem performAll (stuck : Stuck code e m) {cmds : List Command}
    (willing : ∀ cmd ∈ cmds, 0 < cmd.budget) :
    m.performAll code cmds = List.replicate cmds.length (.failed e m) := by
  induction cmds with
  | nil => rfl
  | cons cmd cmds ih =>
    have hfirst : cmd.perform code m = .failed e m :=
      stuck.perform (willing cmd List.mem_cons_self)
    have hrest := ih fun cmd hcmd => willing cmd (List.mem_cons_of_mem _ hcmd)
    rw [Machine.performAll, hfirst]
    show .failed e m :: m.performAll code cmds = _
    rw [hrest, List.length_cons, List.replicate_succ]

end Stuck

end Machine

/-- The two consoles have the same reader, and the same bytes came out of them. -/
structure Console.SameBytes (c d : Console) : Prop where
  reader : c.reader = d.reader
  output : c.output = d.output

namespace Machine

variable {code : Code} {m u v : Machine} {e : RunError}

open Console (SameBytes)

theorem sameBytes_of_flush (h : m.flush.state? = some u) : Coupled SameBytes m u := by
  unfold flush Console.flush at h
  split at h
  · cases h
    exact ⟨rfl, rfl, rfl, rfl, rfl, rfl⟩
  · cases h
    exact ⟨rfl, rfl, rfl, rfl, rfl, rfl⟩

/-- No commands get a machine that is stuck any further. -/
theorem Stuck.leads (stuck : Stuck code e m) {cmds : List Command} (h : Leads code m cmds v) :
    Stuck code e v ∧ Coupled SameBytes m v := by
  induction h with
  | nil m => exact ⟨stuck, .refl ⟨rfl, rfl⟩⟩
  | @cons m u v cmd cmds hcmd _ ih =>
    rcases stuck.of_perform_state? hcmd with rfl | hflush
    · exact ih stuck
    · obtain ⟨c, hu⟩ := exists_console_of_flush hflush
      have hstuck : Stuck code e u := by
        rw [hu]
        exact stuck.withConsole c
      obtain ⟨hv, hrest⟩ := ih hstuck
      have hfirst := sameBytes_of_flush hflush
      exact ⟨hv, hfirst.tape.trans hrest.tape, hfirst.ptr.trans hrest.ptr,
        hfirst.pc.trans hrest.pc, hfirst.steps.trans hrest.steps,
        hfirst.console.reader.trans hrest.console.reader,
        hfirst.console.output.trans hrest.console.output⟩

/-! ## One step -/

/-- What a failed operation leaves behind: the counters and the length of the tape as
they were, and the rest by the kind of the error. -/
structure Leaves (op : Op) (e : RunError) (m u : Machine) : Prop where
  beside : Beside m u
  own : e.cause? = none → Untouched op m u
  stream : ∀ f, e = .io f → CutShort op f m u

/-- A step that has a current cell and fails leaves behind what its operation does. -/
theorem leaves_of_step (on : m.HasCell) (h : m.step code = .failed e u) :
    ∃ op, code[m.pc]? = some op ∧ Leaves op e m u := by
  obtain ⟨op, hop, hexec⟩ := of_step_eq_failed on h
  have hstate : (m.exec op).state? = some u := by
    rw [hexec]
    rfl
  refine ⟨op, hop, ⟨?_, steps_of_exec hstate, size_of_exec hstate⟩, ?_, ?_⟩
  · exact pc_of_exec_eq_failed hexec
  · intro own
    exact untouched_of_exec hexec own
  · intro f hf
    rw [hf] at hexec
    exact cutShort_of_exec on hexec

end Machine

/-- **What a failed step leaves behind.** On a tape that has cells, whatever commands
came before: a step that fails leaves the counters and the length of the tape alone.
If no stream was at fault, it leaves everything alone, but for a scan, which came over
nonzero cells to one from which the next move leaves the tape. If a stream was at
fault, the pointer and all other cells are as before; a write has brought out some
copies of the cell but not all, and a read has stored the last of the bytes that it
got, which are not all either. -/
theorem failed_step_leaves {code : Code} {size : Nat} (hsize : 1 ≤ size) {c : Console}
    {before : List Command} {m : Machine} (reached : (Machine.start size c).Leads code before m)
    {e : RunError} {u : Machine} (failed : m.step code = .failed e u) :
    ∃ op, code[m.pc]? = some op ∧ Machine.Leaves op e m u := by
  have placed : m.Placed size :=
    (Machine.Placed.kept code size).leads (Machine.Placed.start size c) reached
  exact Machine.leaves_of_step (placed.hasCell hsize) failed

/-- A read that gets one of three bytes. -/
theorem failed_step_leaves_halfway :
    ((Machine.start 1 { reader := ⟨[.data [7], .fail ⟨.timedOut, "late"⟩]⟩ }).step
        #[.run .read 3] =
      .failed (.io ⟨.timedOut, "late"⟩)
        { tape := ⟨#[7]⟩,
          console := {
            reader := ⟨[]⟩,
            calls := [.read (.fault ⟨.timedOut, "late"⟩), .flush true, .read (.bytes [7]),
              .flush true] } } ∧
      ∃ op, (#[.run .read 3] : Code)[0]? = some op ∧
        Machine.Leaves op (.io ⟨.timedOut, "late"⟩)
          (Machine.start 1 { reader := ⟨[.data [7], .fail ⟨.timedOut, "late"⟩]⟩ })
          { tape := ⟨#[7]⟩,
            console := {
              reader := ⟨[]⟩,
              calls := [.read (.fault ⟨.timedOut, "late"⟩), .flush true, .read (.bytes [7]),
                .flush true] } }) := by
  have failed : (Machine.start 1
      { reader := ⟨[.data [7], .fail ⟨.timedOut, "late"⟩]⟩ }).step #[.run .read 3] =
        .failed (.io ⟨.timedOut, "late"⟩)
          { tape := ⟨#[7]⟩,
            console := {
              reader := ⟨[]⟩,
              calls := [.read (.fault ⟨.timedOut, "late"⟩), .flush true, .read (.bytes [7]),
                .flush true] } } := by decide +kernel
  exact ⟨failed, failed_step_leaves (Nat.le_refl 1) (.nil _) failed⟩

/-! ## Sessions -/

/-- **Errors of the machine itself are lasting.** When a command fails and no stream is
at fault, commands that may execute an operation all fail in the same way from then
on and leave the machine exactly as it is. Commands that may not, and so do no more
than flush, make no difference to that. -/
theorem errors_are_lasting {code : Code} {m u : Machine} {cmd : Command} {e : RunError}
    (failed : cmd.perform code m = .failed e u) (own : e.cause? = none) :
    (∀ later : List Command, (∀ next ∈ later, 0 < next.budget) →
      u.performAll code later = List.replicate later.length (.failed e u)) ∧
    ∀ (between : List Command) (v : Machine), u.Leads code between v →
      Machine.Coupled Console.SameBytes u v ∧
        ∀ next : Command, 0 < next.budget → next.perform code v = .failed e v := by
  have stuck : Machine.Stuck code e u := by
    rcases Command.of_perform_eq_failed failed with ⟨k, w, -, hstep⟩ | ⟨last, -, hflush⟩
    · exact Machine.stuck_of_step hstep own
    · -- a flush fails for its stream only
      obtain ⟨f, rfl⟩ := Machine.exists_fault_of_flush hflush
      cases own
  refine ⟨?_, ?_⟩
  · intro later willing
    exact stuck.performAll willing
  · intro between v led
    obtain ⟨hv, hsame⟩ := stuck.leads led
    exact ⟨hsame, fun next hnext => hv.perform hnext⟩

/-- A scan that moved before it left the tape, and then a step and two runs. -/
theorem errors_are_lasting_after_scan :
    (Command.run 9).perform #[.run .inc 1, .run .right 1, .run .inc 1, .run .left 1, .scan 1]
        (Machine.start 2 {}) =
      .failed (.offTape 4 2) { tape := ⟨#[1, 1]⟩, ptr := 1, pc := 4, steps := 4 } ∧
    Machine.performAll #[.run .inc 1, .run .right 1, .run .inc 1, .run .left 1, .scan 1]
        { tape := ⟨#[1, 1]⟩, ptr := 1, pc := 4, steps := 4 } [.step, .runAtMost 5, .run 2] =
      List.replicate 3
        (.failed (.offTape 4 2) { tape := ⟨#[1, 1]⟩, ptr := 1, pc := 4, steps := 4 }) := by
  have failed : (Command.run 9).perform
      #[.run .inc 1, .run .right 1, .run .inc 1, .run .left 1, .scan 1] (Machine.start 2 {}) =
        .failed (.offTape 4 2) { tape := ⟨#[1, 1]⟩, ptr := 1, pc := 4, steps := 4 } := rfl
  exact ⟨failed, (errors_are_lasting failed rfl).1 _ (by decide)⟩

end Brainfuck
