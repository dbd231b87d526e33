import Brainfuck.Proofs.Footing

/-!
# What cannot go wrong

The machine can run off the tape, meet a trap, or have a stream that fails. A
compiled array leaves it the first and the last of these. This module says so of
whole sessions, in which commands follow on each other whether they fail or not:

* **whose fault it is** — an error is of the kind that the operation at the
  program counter can cause (`Op.CanCause`, `canCause_of_exec`);
* **where the counter is** — jumps of a compiled array stay inside it
  (`Block.target_lt_of_mem_lower`), and it has no traps, so the counter never
  gets further than the end (`Code.Sound.kept`).

The main result is `compiled_commands_safe`.
-/

namespace Brainfuck

/-! ## Whose fault it is -/

namespace Op

/-- The operation may have to go to another cell. -/
def moves : Op → Bool
  | .run .right _ | .run .left _ | .scan _ | .transfer _ => true
  | _ => false

/-- The operation uses a stream. -/
def talks : Op → Bool
  | .run .read _ | .run .write _ => true
  | _ => false

/-- The error is one that the operation, at index `pc`, can cause. -/
def CanCause (pc : Nat) (op : Op) : RunError → Prop
  | .offTape i _ => i = pc ∧ op.moves = true
  | .trap i => i = pc ∧ op = .trap
  | .io _ => op.talks = true

end Op

namespace Machine

variable {code : Code} {m u m' : Machine} {e : RunError}

theorem offTape_of_move {offset : Int} (h : m.move offset = .failed e u) :
    ∃ cell, e = .offTape m.pc cell := by
  unfold move at h
  split at h
  · cases h
  · rename_i hlocate
    cases h
    exact exists_cell_of_locate hlocate

theorem offTape_of_scanFor {stride : Int} {fuel : Nat}
    (h : m.scanFor stride fuel = .failed e u) : ∃ cell, e = .offTape m.pc cell := by
  induction fuel generalizing m with
  | zero => cases h
  | succ fuel ih =>
    rw [scanFor] at h
    split at h
    · cases h
    · split at h
      · rename_i cell _
        exact ih (m := { m with ptr := cell }) h
      · rename_i hlocate
        cases h
        exact exists_cell_of_locate hlocate

theorem offTape_of_transfer {offset : Int} (h : m.transfer offset = .failed e u) :
    ∃ cell, e = .offTape m.pc cell := by
  unfold transfer at h
  dsimp only at h
  split at h
  · cases h
  · split at h
    · cases h
    · rename_i hlocate
      cases h
      exact exists_cell_of_locate hlocate

theorem io_of_readCell {n : Nat} (h : m.readCell n = .failed e u) : ∃ f, e = .io f := by
  induction n generalizing m with
  | zero => cases h
  | succ n ih =>
    rw [readCell] at h
    split at h
    · exact ih h
    · cases h
    · cases h
      exact ⟨_, rfl⟩
    · cases h

theorem io_of_writeCell {n : Nat} (h : m.writeCell n = .failed e u) : ∃ f, e = .io f := by
  induction n generalizing m with
  | zero => cases h
  | succ n ih =>
    rw [writeCell] at h
    split at h
    · exact ih h
    · cases h
      exact ⟨_, rfl⟩
    · cases h

theorem canCause_of_act {n : Nat} {a : Action} (h : m.act n a = .failed e u) :
    (Op.run a n).CanCause m.pc e := by
  cases a with
  | right =>
    obtain ⟨cell, rfl⟩ := offTape_of_move h
    exact ⟨rfl, rfl⟩
  | left =>
    obtain ⟨cell, rfl⟩ := offTape_of_move h
    exact ⟨rfl, rfl⟩
  | inc => cases h
  | dec => cases h
  | write =>
    obtain ⟨f, rfl⟩ := io_of_writeCell h
    rfl
  | read =>
    obtain ⟨f, rfl⟩ := io_of_readCell h
    rfl

/-- The error of an operation is one that it can cause. -/
theorem canCause_of_exec {op : Op} (h : m.exec op = .failed e u) : op.CanCause m.pc e := by
  cases op with
  | run a n => exact canCause_of_act h
  | jumpZero target => cases h
  | jumpNonzero target => cases h
  | clear => cases h
  | scan stride =>
    obtain ⟨cell, rfl⟩ := offTape_of_scanFor h
    exact ⟨rfl, rfl⟩
  | transfer offset =>
    obtain ⟨cell, rfl⟩ := offTape_of_transfer h
    exact ⟨rfl, rfl⟩
  | trap =>
    cases h
    exact ⟨rfl, rfl⟩

/-- Jumps do not fail, so a failed operation leaves the counter at itself. -/
theorem pc_of_exec_eq_failed {op : Op} (h : m.exec op = .failed e u) : u.pc = m.pc := by
  have hstate : (m.exec op).state? = some u := by
    rw [h]
    rfl
  rcases pc_of_exec hstate with hpc | rfl | rfl
  · exact hpc
  · cases h
  · cases h

/-- A step that has a current cell fails for a reason that the operation at the
counter can cause, and the counter stays at it. -/
theorem canCause_of_step (on : m.HasCell) (h : m.step code = .failed e m') :
    ∃ op, code[m'.pc]? = some op ∧ op.CanCause m'.pc e := by
  obtain ⟨op, hop, hexec⟩ := of_step_eq_failed on h
  rw [pc_of_exec_eq_failed hexec]
  exact ⟨op, hop, canCause_of_exec hexec⟩

end Machine

/-! ## Where the counter is -/

/-- The jumps of the array stay inside it, and there are no traps. -/
structure Code.Sound (code : Code) : Prop where
  opening : ∀ i target : Nat, code[i]? = some (.jumpZero target) → target < code.size
  closing : ∀ i target : Nat, code[i]? = some (.jumpNonzero target) → target < code.size
  noTrap : ∀ i : Nat, code[i]? ≠ some .trap

/-- The jumps of a block go to its own operations, wherever it stands. -/
theorem Block.target_lt_of_mem_lower {base target : Nat} {b : Block}
    (h : .jumpZero target ∈ b.lower base ∨ .jumpNonzero target ∈ b.lower base) :
    target < base + b.size := by
  induction b generalizing base with
  | empty => simp [lower] at h
  | act before a n ih =>
    rw [size_act]
    have hbefore : .jumpZero target ∈ before.lower base ∨
        .jumpNonzero target ∈ before.lower base := by
      simpa [lower] using h
    have := ih hbefore
    omega
  | loop before body ihBefore ihBody =>
    rw [lower_loop, List.mem_append, List.mem_append] at h
    cases hf : Op.fuse? (body.lower 0) with
    | some op =>
      -- a fused loop is one operation, and that is no jump
      rw [Op.enclose_of_some ((fuse?_lower _ body).trans hf), List.mem_singleton,
        List.mem_singleton] at h
      have hjump := (Op.idiom_of_fuse? hf).not_isJump
      rw [size_loop_of_some hf]
      rcases h with (h | rfl) | (h | rfl)
      · have := ihBefore (.inl h)
        omega
      · cases hjump
      · have := ihBefore (.inr h)
        omega
      · cases hjump
    | none =>
      rw [Op.enclose_of_none ((fuse?_lower _ body).trans hf), length_lower] at h
      rw [size_loop_of_none hf]
      simp only [List.cons_append, List.mem_cons, List.mem_append, Op.jumpZero.injEq,
        Op.jumpNonzero.injEq, reduceCtorEq, List.not_mem_nil, or_false, false_or] at h
      rcases h with (h | rfl | h) | (h | h | rfl)
      · have := ihBefore (.inl h)
        omega
      · omega
      · have := ihBody (.inl h)
        omega
      · have := ihBefore (.inr h)
        omega
      · have := ihBody (.inr h)
        omega
      · omega

/-- A compiled array is sound. -/
theorem sound_of_compile {p : List UInt8} {code : Code}
    (accepted : (compile p).result = .ok code) : code.Sound := by
  obtain ⟨b, tight, -, rfl⟩ := exists_block_of_compile accepted
  have hmem {i : Nat} {op : Op} (h : b.code[i]? = some op) : op ∈ b.lower 0 := by
    rw [Block.code, List.getElem?_toArray] at h
    exact List.mem_of_getElem? h
  have hsize : b.code.size = 0 + b.size := by simp [Block.code]
  refine ⟨?_, ?_, ?_⟩
  · intro i target h
    rw [hsize]
    exact Block.target_lt_of_mem_lower (.inl (hmem h))
  · intro i target h
    rw [hsize]
    exact Block.target_lt_of_mem_lower (.inr (hmem h))
  · intro i h
    exact tight.proper_of_mem_lower .trap (hmem h)

namespace Code.Sound

open Machine

variable {code : Code}

/-- The counter of a session gets no further than the end of a sound array. -/
theorem kept (sound : code.Sound) : Kept code fun m => m.pc ≤ code.size := by
  refine ⟨?_, ?_⟩
  · intro m m' hpc h
    rcases of_step_state? h with rfl | ⟨op, u, hop, -, hexec, hm'⟩
    · exact hpc
    · have hlt : m.pc < code.size := (Array.getElem?_eq_some_iff.mp hop).1
      have hu : u.pc < code.size := by
        rcases pc_of_exec hexec with hsame | rfl | rfl
        · rw [hsame]
          exact hlt
        · exact sound.opening m.pc u.pc hop
        · exact sound.closing m.pc u.pc hop
      rcases hm' with rfl | rfl
      · exact Nat.le_of_lt hu
      · show bump u.pc ≤ code.size
        have := bump_le_succ u.pc
        omega
  · intro m c hpc
    exact hpc

end Code.Sound

/-! ## Commands -/

/-- What is left to go wrong with a command that is given to `m`. -/
structure Command.Safe (code : Code) (m : Machine) (cmd : Command) : Prop where
  /-- No trap is ever executed. -/
  noTrap : ∀ op m', cmd.perform code m ≠ .failed (.trap op) m'
  /-- Only an operation that moves leaves the tape. -/
  offTape : ∀ pc cell m', cmd.perform code m = .failed (.offTape pc cell) m' →
    pc < code.size ∧ ∃ op, code[pc]? = some op ∧ op.moves = true
  /-- Only an operation that reads or writes meets a stream that fails, except for
  the flush at the end. -/
  io : ∀ f m', cmd.perform code m = .failed (.io f) m' →
    (∃ op, code[m'.pc]? = some op ∧ op.talks = true) ∨
      ∃ last, cmd.ComesToFlush code m last ∧ last.flush = .failed (.io f) m'

/-- A command is safe if every step before its end has a current cell, and the
array is sound. -/
theorem Code.Sound.safe {code : Code} (sound : code.Sound) {size : Nat} (hsize : 1 ≤ size)
    {m : Machine} (placed : m.Placed size) (cmd : Command) : cmd.Safe code m := by
  -- a step of the command starts from a machine that is placed, too
  have hstep {e : RunError} {k : Nat} {u m' : Machine} (hadvance : m.advance code k = .done () u)
      (h : u.step code = .failed e m') : ∃ op, code[m'.pc]? = some op ∧ op.CanCause m'.pc e := by
    have hu : u.Placed size := (Machine.Placed.kept code size).advance placed (by rw [hadvance]; rfl)
    exact Machine.canCause_of_step (hu.hasCell hsize) h
  refine ⟨?_, ?_, ?_⟩
  · intro i m' h
    rcases Command.of_perform_eq_failed h with ⟨k, u, hadvance, hfailed⟩ | ⟨last, -, hflush⟩
    · obtain ⟨op, hop, -, rfl⟩ := hstep hadvance hfailed
      exact sound.noTrap m'.pc hop
    · obtain ⟨f, hf⟩ := Machine.exists_fault_of_flush hflush
      cases hf
  · intro pc cell m' h
    rcases Command.of_perform_eq_failed h with ⟨k, u, hadvance, hfailed⟩ | ⟨last, -, hflush⟩
    · obtain ⟨op, hop, rfl, hmoves⟩ := hstep hadvance hfailed
      exact ⟨(Array.getElem?_eq_some_iff.mp hop).1, op, hop, hmoves⟩
    · obtain ⟨f, hf⟩ := Machine.exists_fault_of_flush hflush
      cases hf
  · intro f m' h
    rcases Command.of_perform_eq_failed h with ⟨k, u, hadvance, hfailed⟩ | hflush
    · obtain ⟨op, hop, htalks⟩ := hstep hadvance hfailed
      exact .inl ⟨op, hop, htalks⟩
    · exact .inr hflush

/-- **Compiled arrays are safe.** Whatever commands came before, and whether they
failed or not: the counter is not past the end of the array, the next command
meets no trap, leaves the tape only at an operation that moves, and fails with a
stream only at an operation that uses one or at its final flush; and a full run
that succeeds stops at the end exactly. -/
theorem compiled_commands_safe {p : List UInt8} {code : Code}
    (accepted : (compile p).result = .ok code) {size : Nat} (hsize : 1 ≤ size) (c : Console)
    {before : List Command} {m : Machine} (reached : (Machine.start size c).Leads code before m) :
    m.pc ≤ code.size ∧ (∀ cmd : Command, cmd.Safe code m) ∧
      ∀ fuel m', m.run code fuel = .done () m' → m'.pc = code.size := by
  have sound := sound_of_compile accepted
  have hpc : m.pc ≤ code.size := sound.kept.leads (Nat.zero_le _) reached
  have placed : m.Placed size :=
    (Machine.Placed.kept code size).leads (Machine.Placed.start size c) reached
  refine ⟨hpc, ?_, ?_⟩
  · intro cmd
    exact sound.safe hsize placed cmd
  · intro fuel m' h
    have hle : m'.pc ≤ code.size := sound.kept.run hpc (by rw [h]; rfl)
    obtain ⟨last, -, hend, hflush⟩ := Machine.of_run_eq_done h
    have hstate : last.flush.state? = some m' := by
      rw [hflush]
      rfl
    obtain ⟨c', rfl⟩ := Machine.exists_console_of_flush hstate
    have hge : code.size ≤ last.pc := by simpa [Machine.atEnd] using hend
    exact Nat.le_antisymm hle hge

/-- A walk off the tape, and the commands after it. -/
theorem compiled_commands_safe_after_escape :
    (compile "+.[>+]".toUTF8.data.toList).result =
      .ok #[.run .inc 1, .run .write 1, .jumpZero 5, .run .right 1, .run .inc 1, .jumpNonzero 2] ∧
    (Machine.start 2 {}).Leads
      #[.run .inc 1, .run .write 1, .jumpZero 5, .run .right 1, .run .inc 1, .jumpNonzero 2]
      [.run 20, .step]
      { tape := ⟨#[1, 1]⟩, ptr := 1, pc := 3, steps := 6, console := { calls := [.wrote [1]] } } ∧
    ∀ cmd : Command, cmd.Safe
      #[.run .inc 1, .run .write 1, .jumpZero 5, .run .right 1, .run .inc 1, .jumpNonzero 2]
      { tape := ⟨#[1, 1]⟩, ptr := 1, pc := 3, steps := 6,
        console := { calls := [.wrote [1]] } } := by
  have accepted : (compile "+.[>+]".toUTF8.data.toList).result =
      .ok #[.run .inc 1, .run .write 1, .jumpZero 5, .run .right 1, .run .inc 1,
        .jumpNonzero 2] := by decide +kernel
  have reached : (Machine.start 2 {}).Leads
      #[.run .inc 1, .run .write 1, .jumpZero 5, .run .right 1, .run .inc 1, .jumpNonzero 2]
      [.run 20, .step]
      { tape := ⟨#[1, 1]⟩, ptr := 1, pc := 3, steps := 6,
        console := { calls := [.wrote [1]] } } :=
    .cons rfl (.cons rfl (.nil _))
  exact ⟨accepted, reached, (compiled_commands_safe accepted (by decide) {} reached).2.1⟩

end Brainfuck
