import Brainfuck.Proofs.Footing

/-!
# Runs on a longer tape

More cells do not change what succeeds. `Machine.widen` appends zero cells to
the tape of a machine and leaves everything else as it is; each layer of the
machine goes on in the same way after it:

* **one operation** — the cells that an operation uses are on the shorter tape,
  so on the longer one it finds them at the same place and with the same values
  (`exec_widen`). A scan may look at more cells than before, but it has found
  what it is looking for (`scanFor_widen`);
* **one step, many steps** — `step_widen`, `advance_widen`;
* **whole runs** — `runAtMost_widen`, `run_widen`.

A failure at the end of the shorter tape is not kept, so all of this is about
outcomes that succeed. The main result is `run_on_longer_tape`.
-/

namespace Brainfuck

/-! ## Longer tapes -/

namespace Tape

variable {t : Tape} {i : Nat}

/-- The tape with `n` more cells at its end, all zero. -/
def widen (n : Nat) (t : Tape) : Tape := ⟨t.cells ++ Array.replicate n 0⟩

@[simp] theorem size_widen (n : Nat) (t : Tape) : (t.widen n).size = t.size + n := by
  simp [widen, size]

/-- A cell that is not on the tape counts as zero, and that is what it becomes. -/
@[simp] theorem get_widen (n : Nat) (t : Tape) (i : Nat) : (t.widen n).get i = t.get i := by
  unfold widen get
  rw [Array.getD_eq_getD_getElem?, Array.getD_eq_getD_getElem?]
  by_cases h : i < t.cells.size
  · rw [Array.getElem?_append_left h]
  · have hi : t.cells.size ≤ i := Nat.le_of_not_lt h
    rw [Array.getElem?_append_right hi, Array.getElem?_eq_none hi, Array.getElem?_replicate]
    split <;> rfl

theorem set_widen (n : Nat) (h : i < t.size) (v : UInt8) :
    (t.widen n).set i v = (t.set i v).widen n := by
  have hi : i < t.cells.size := h
  simp [widen, set, Array.setIfInBounds_append_left, hi]

theorem widen_blank (n size : Nat) : (blank size).widen n = blank (size + n) := by
  simp [widen, blank, Array.replicate_append_replicate]

end Tape

namespace Machine

variable {code : Code} {m u : Machine} (n : Nat)

/-- The machine with `n` more cells at the end of its tape, all zero. -/
def widen (m : Machine) : Machine := { m with tape := m.tape.widen n }

theorem widen_start (size : Nat) (c : Console) :
    (start size c).widen n = start (size + n) c := by
  show Machine.mk ((Tape.blank size).widen n) 0 0 0 c = _
  rw [Tape.widen_blank]
  rfl

theorem console_widen (m : Machine) : (m.widen n).console = m.console := rfl

theorem cell_widen (m : Machine) : (m.widen n).cell = m.cell := by
  show (m.tape.widen n).get m.ptr = m.tape.get m.ptr
  rw [Tape.get_widen]

theorem setCell_widen (on : m.HasCell) (v : UInt8) :
    (m.widen n).setCell v = (m.setCell v).widen n := by
  show Machine.mk ((m.tape.widen n).set m.ptr v) m.ptr m.pc m.steps m.console = _
  rw [Tape.set_widen n on]
  rfl

/-! ## One operation -/

/-- What is found on the tape is found on the longer one. -/
theorem locate_widen {offset : Int} {cell : Nat} (h : m.locate offset = .ok cell) :
    (m.widen n).locate offset = .ok cell := by
  unfold locate at h ⊢
  dsimp only at h ⊢
  split at h
  · rename_i hin
    cases h
    have hsize : (m.widen n).tape.size = m.tape.size + n := Tape.size_widen n m.tape
    have hptr : (m.widen n).ptr = m.ptr := rfl
    rw [hsize, hptr, if_pos (by omega)]
  · cases h

theorem move_widen {offset : Int} (h : m.move offset = .done () u) :
    (m.widen n).move offset = .done () (u.widen n) := by
  unfold move at h ⊢
  cases hlocate : m.locate offset with
  | ok cell =>
    rw [hlocate] at h
    cases h
    rw [locate_widen n hlocate]
    rfl
  | error e =>
    rw [hlocate] at h
    cases h

theorem readCell_widen {k : Nat} (on : m.HasCell) (h : m.readCell k = .done () u) :
    (m.widen n).readCell k = .done () (u.widen n) := by
  induction k generalizing m with
  | zero =>
    cases h
    rfl
  | succ k ih =>
    rw [readCell] at h ⊢
    rw [console_widen]
    cases hget : m.console.getByte with
    | done answer c =>
      rw [hget] at h
      cases answer with
      | some b =>
        show readCell k { m.widen n with tape := (m.tape.widen n).set m.ptr b, console := c } = _
        rw [Tape.set_widen n on]
        exact ih (m := { m with tape := m.tape.set m.ptr b, console := c }) (on.setCell b) h
      | none =>
        cases h
        rfl
    | failed f c =>
      rw [hget] at h
      cases h
    | unfinished =>
      rw [hget] at h
      cases h

theorem writeCell_widen {k : Nat} (h : m.writeCell k = .done () u) :
    (m.widen n).writeCell k = .done () (u.widen n) := by
  induction k generalizing m with
  | zero =>
    cases h
    rfl
  | succ k ih =>
    rw [writeCell] at h ⊢
    rw [cell_widen, console_widen]
    cases hput : m.console.putByte m.cell with
    | done answer c =>
      rw [hput] at h
      exact ih (m := { m with console := c }) h
    | failed f c =>
      rw [hput] at h
      cases h
    | unfinished =>
      rw [hput] at h
      cases h

/-- A scan that comes to its end does so with any more fuel. -/
theorem scanFor_widen {stride : Int} {fuel fuel' : Nat} (hfuel : fuel ≤ fuel')
    (h : m.scanFor stride fuel = .done () u) :
    (m.widen n).scanFor stride fuel' = .done () (u.widen n) := by
  induction fuel generalizing m fuel' with
  | zero => cases h
  | succ fuel ih =>
    obtain ⟨more, rfl⟩ : ∃ more, fuel' = more + 1 := ⟨fuel' - 1, by omega⟩
    rw [scanFor] at h ⊢
    rw [cell_widen]
    by_cases hcell : m.cell = 0
    · rw [if_pos hcell] at h ⊢
      cases h
      rfl
    · rw [if_neg hcell] at h ⊢
      cases hlocate : m.locate stride with
      | ok cell =>
        rw [hlocate] at h
        rw [locate_widen n hlocate]
        exact ih (m := { m with ptr := cell }) (by omega) h
      | error e =>
        rw [hlocate] at h
        cases h

theorem transfer_widen {offset : Int} (on : m.HasCell) (h : m.transfer offset = .done () u) :
    (m.widen n).transfer offset = .done () (u.widen n) := by
  unfold transfer at h ⊢
  dsimp only at h ⊢
  rw [cell_widen]
  by_cases hcell : m.cell = 0
  · rw [if_pos hcell] at h ⊢
    cases h
    rfl
  · rw [if_neg hcell] at h ⊢
    cases hlocate : m.locate offset with
    | ok cell =>
      rw [hlocate] at h
      cases h
      rw [locate_widen n hlocate]
      -- both cells are on the shorter tape, the current one also after the other changed
      have hthere := lt_size_of_locate hlocate
      have hhere : m.ptr < (m.tape.set cell (m.tape.get cell + m.cell)).size := by
        rw [Tape.size_set]
        exact on
      dsimp only [widen]
      rw [Tape.get_widen, Tape.set_widen n hthere, Tape.set_widen n hhere]
    | error e =>
      rw [hlocate] at h
      cases h

theorem act_widen {k : Nat} {a : Action} (on : m.HasCell) (h : m.act k a = .done () u) :
    (m.widen n).act k a = .done () (u.widen n) := by
  cases a with
  | right => exact move_widen n h
  | left => exact move_widen n h
  | inc =>
    cases h
    rw [act, cell_widen, setCell_widen n on]
  | dec =>
    cases h
    rw [act, cell_widen, setCell_widen n on]
  | write => exact writeCell_widen n h
  | read => exact readCell_widen n on h

/-- An operation that succeeds does the same on a longer tape. -/
theorem exec_widen {op : Op} (on : m.HasCell) (h : m.exec op = .done () u) :
    (m.widen n).exec op = .done () (u.widen n) := by
  cases op with
  | run a k => exact act_widen n on h
  | jumpZero target =>
    cases h
    rw [exec, cell_widen]
    split <;> rfl
  | jumpNonzero target =>
    cases h
    rw [exec, cell_widen]
    split <;> rfl
  | clear =>
    cases h
    rw [exec, setCell_widen n on]
  | scan stride =>
    have hlonger : m.tape.size ≤ (m.tape.widen n).size := by
      rw [Tape.size_widen]
      omega
    exact scanFor_widen n hlonger h
  | transfer offset => exact transfer_widen n on h
  | trap => cases h

/-! ## Steps and runs -/

theorem step_widen {more : Bool} (h : m.step code = .done more u) :
    (m.widen n).step code = .done more (u.widen n) := by
  have hpc : (m.widen n).pc = m.pc := rfl
  unfold step at h ⊢
  rw [hpc]
  cases hop : code[m.pc]? with
  | none =>
    rw [hop] at h
    cases h
    rfl
  | some op =>
    rw [hop] at h
    dsimp only at h ⊢
    by_cases on : m.ptr < m.tape.size
    · have on' : (m.widen n).ptr < (m.widen n).tape.size := by
        show m.ptr < (m.tape.widen n).size
        rw [Tape.size_widen]
        omega
      rw [if_pos on] at h
      obtain ⟨_, v, hexec, htick⟩ := Outcome.of_bind_eq_done h
      cases htick
      rw [if_pos on', exec_widen n on hexec]
      rfl
    · rw [if_neg on] at h
      cases h

theorem advance_widen {k : Nat} (h : m.advance code k = .done () u) :
    (m.widen n).advance code k = .done () (u.widen n) := by
  induction k generalizing m with
  | zero =>
    cases h
    rfl
  | succ k ih =>
    rw [advance] at h ⊢
    cases hstep : m.step code with
    | done more v =>
      rw [hstep] at h
      rw [step_widen n hstep]
      cases more with
      | true => exact ih h
      | false =>
        cases h
        rfl
    | failed e v =>
      rw [hstep] at h
      cases h
    | unfinished =>
      rw [hstep] at h
      cases h

theorem flush_widen (h : m.flush = .done () u) : (m.widen n).flush = .done () (u.widen n) := by
  have hconsole : (m.widen n).console = m.console := rfl
  unfold flush at h ⊢
  rw [hconsole]
  cases hflush : m.console.flush with
  | done a c =>
    rw [hflush] at h
    cases h
    rfl
  | failed f c =>
    rw [hflush] at h
    cases h
  | unfinished =>
    rw [hflush] at h
    cases h

theorem runAtMost_widen {limit : Nat} {halted : Bool}
    (h : m.runAtMost code limit = .done halted u) :
    (m.widen n).runAtMost code limit = .done halted (u.widen n) := by
  obtain ⟨_, v, hadvance, hrest⟩ := Outcome.of_bind_eq_done h
  obtain ⟨_, w, hflush, hanswer⟩ := Outcome.of_bind_eq_done hrest
  cases hanswer
  rw [runAtMost, advance_widen n hadvance, Outcome.bind_done, flush_widen n hflush]
  rfl

theorem run_widen {fuel : Nat} (h : m.run code fuel = .done () u) :
    (m.widen n).run code fuel = .done () (u.widen n) := by
  obtain ⟨v, hadvance, hend, hflush⟩ := of_run_eq_done h
  have hend' : (v.widen n).atEnd code = true := hend
  rw [run_of_advance_done (advance_widen n hadvance) hend']
  exact flush_widen n hflush

end Machine

/-- **More cells change nothing that succeeds.** A limited or a full run that
succeeds from the start on `size` cells succeeds on any longer tape with the same
answer. What it leaves behind there is the same machine, with the same counters,
pointer and console, and behind its `size` cells are zeros. -/
theorem run_on_longer_tape {code : Code} {size size' : Nat} (hle : size ≤ size') (c : Console) :
    (∀ (limit : Nat) (halted : Bool) (m : Machine),
      (Machine.start size c).runAtMost code limit = .done halted m → m.tape.size = size ∧
      (Machine.start size' c).runAtMost code limit = .done halted (m.widen (size' - size))) ∧
    ∀ (fuel : Nat) (m : Machine),
      (Machine.start size c).run code fuel = .done () m → m.tape.size = size ∧
      (Machine.start size' c).run code fuel = .done () (m.widen (size' - size)) := by
  have hstart : Machine.start size' c = (Machine.start size c).widen (size' - size) := by
    rw [Machine.widen_start, Nat.add_sub_cancel' hle]
  have placed := Machine.Placed.start size c
  have kept := Machine.Placed.kept code size
  rw [hstart]
  refine ⟨?_, ?_⟩
  · intro limit halted m h
    have hm : m.Placed size := kept.runAtMost placed (by rw [h]; rfl)
    exact ⟨hm.size_eq, Machine.runAtMost_widen _ h⟩
  · intro fuel m h
    have hm : m.Placed size := kept.run placed (by rw [h]; rfl)
    exact ⟨hm.size_eq, Machine.run_widen _ h⟩

/-- A scan and a transfer that keep to two cells, on two and on five. -/
theorem run_on_longer_tape_scan :
    2 ≤ 5 ∧
    (Machine.start 2 {}).run
      #[.run .inc 3, .run .write 1, .scan 1, .run .inc 2, .transfer (-1)] 6 =
      .done () { tape := ⟨#[5, 0]⟩, ptr := 1, pc := 5, steps := 5,
                 console := { calls := [.flush true, .wrote [3]] } } ∧
    (Machine.start 5 {}).run
      #[.run .inc 3, .run .write 1, .scan 1, .run .inc 2, .transfer (-1)] 6 =
      .done () { tape := ⟨#[5, 0, 0, 0, 0]⟩, ptr := 1, pc := 5, steps := 5,
                 console := { calls := [.flush true, .wrote [3]] } } := by
  have short : (Machine.start 2 {}).run
      #[.run .inc 3, .run .write 1, .scan 1, .run .inc 2, .transfer (-1)] 6 =
      .done () { tape := ⟨#[5, 0]⟩, ptr := 1, pc := 5, steps := 5,
                 console := { calls := [.flush true, .wrote [3]] } } := by rfl
  exact ⟨by decide, short, ((run_on_longer_tape (by decide) {}).2 6 _ short).2⟩

end Brainfuck
