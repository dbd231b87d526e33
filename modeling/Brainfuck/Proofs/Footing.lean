import Brainfuck.Proofs.Commands
import Brainfuck.Proofs.ControlFlow

/-!
# The pointer stays on the tape

This holds of every array, whatever its arguments, and of every console:

* **one operation** — an operation that finds a current cell leaves one behind,
  however it ends (`HasCell.exec`);
* **one step** — a step leaves the machine alone, or leaves behind what its
  operation does (`of_step_state?`);
* **sessions** — so a tape that has cells always has a current one, and a tape
  without cells keeps its pointer where it was (`Placed.kept`).
-/

namespace Brainfuck

/-! ## The current cell -/

namespace Machine

variable {code : Code} {m u m' : Machine}

/-- There is a current cell. -/
def HasCell (m : Machine) : Prop := m.ptr < m.tape.size

/-- A cell that is found is on the tape. -/
theorem lt_size_of_locate {offset : Int} {cell : Nat} (h : m.locate offset = .ok cell) :
    cell < m.tape.size := by
  unfold locate at h
  dsimp only at h
  split at h
  · cases h
    omega
  · cases h

/-- Who goes to a cell that was found has a current cell. -/
theorem hasCell_of_locate {offset : Int} {cell : Nat} (h : m.locate offset = .ok cell) :
    HasCell { m with ptr := cell } := by
  show cell < m.tape.size
  exact lt_size_of_locate h

/-- A cell that is not found is the fault of the current operation. -/
theorem exists_cell_of_locate {offset : Int} {e : RunError} (h : m.locate offset = .error e) :
    ∃ cell, e = .offTape m.pc cell := by
  unfold locate at h
  dsimp only at h
  split at h
  · cases h
  · cases h
    exact ⟨_, rfl⟩

namespace HasCell

theorem setCell (on : m.HasCell) (v : UInt8) : (m.setCell v).HasCell := by
  show m.ptr < (m.tape.set m.ptr v).size
  rw [Tape.size_set]
  exact on

theorem move (on : m.HasCell) {offset : Int} (h : (m.move offset).state? = some u) :
    u.HasCell := by
  unfold Machine.move at h
  split at h
  · rename_i cell hlocate
    cases h
    exact hasCell_of_locate hlocate
  · cases h
    exact on

theorem readCell (on : m.HasCell) {n : Nat} (h : (m.readCell n).state? = some u) :
    u.HasCell := by
  induction n generalizing m with
  | zero =>
    cases h
    exact on
  | succ n ih =>
    rw [Machine.readCell] at h
    split at h
    · rename_i b c _
      exact ih (m := { m with tape := m.tape.set m.ptr b, console := c }) (on.setCell b) h
    · cases h
      exact on
    · cases h
      exact on
    · cases h

theorem writeCell (on : m.HasCell) {n : Nat} (h : (m.writeCell n).state? = some u) :
    u.HasCell := by
  induction n generalizing m with
  | zero =>
    cases h
    exact on
  | succ n ih =>
    rw [Machine.writeCell] at h
    split at h
    · rename_i c _
      exact ih (m := { m with console := c }) on h
    · cases h
      exact on
    · cases h

theorem scanFor (on : m.HasCell) {stride : Int} {fuel : Nat}
    (h : (m.scanFor stride fuel).state? = some u) : u.HasCell := by
  induction fuel generalizing m with
  | zero => cases h
  | succ fuel ih =>
    rw [Machine.scanFor] at h
    split at h
    · cases h
      exact on
    · split at h
      · rename_i cell hlocate
        exact ih (hasCell_of_locate hlocate) h
      · cases h
        exact on

theorem transfer (on : m.HasCell) {offset : Int} (h : (m.transfer offset).state? = some u) :
    u.HasCell := by
  unfold Machine.transfer at h
  dsimp only at h
  split at h
  · cases h
    exact on
  · split at h
    · cases h
      simpa [HasCell] using on
    · cases h
      exact on

theorem act (on : m.HasCell) {n : Nat} {a : Action} (h : (m.act n a).state? = some u) :
    u.HasCell := by
  cases a with
  | right => exact on.move h
  | left => exact on.move h
  | inc =>
    cases h
    exact on.setCell _
  | dec =>
    cases h
    exact on.setCell _
  | write => exact on.writeCell h
  | read => exact on.readCell h

theorem jump (on : m.HasCell) (target : Nat) : (m.jump target).HasCell := on

/-- An operation that has a current cell leaves one behind, also if it fails. -/
theorem exec (on : m.HasCell) {op : Op} (h : (m.exec op).state? = some u) : u.HasCell := by
  cases op with
  | run a n => exact on.act h
  | jumpZero target =>
    cases h
    split
    · exact on.jump target
    · exact on
  | jumpNonzero target =>
    cases h
    split
    · exact on
    · exact on.jump target
  | clear =>
    cases h
    exact on.setCell 0
  | scan stride => exact on.scanFor h
  | transfer offset => exact on.transfer h
  | trap =>
    cases h
    exact on

end HasCell

/-! ## One step, however it ends -/

/-- A step executes the operation at the counter and counts it. -/
theorem step_of_op {op : Op} (hop : code[m.pc]? = some op) (on : m.HasCell) :
    m.step code = (m.exec op).bind fun _ u => .done true u.tick := by
  have on' : m.ptr < m.tape.size := on
  rw [step, hop]
  exact if_pos on'

/-- An operation goes where it jumps to, or does not touch the counter. -/
theorem pc_of_exec {op : Op} (h : (m.exec op).state? = some u) :
    u.pc = m.pc ∨ op = .jumpZero u.pc ∨ op = .jumpNonzero u.pc := by
  cases op with
  | jumpZero target =>
    cases h
    split
    · exact .inr (.inl rfl)
    · exact .inl rfl
  | jumpNonzero target =>
    cases h
    split
    · exact .inl rfl
    · exact .inr (.inr rfl)
  | run a n => exact .inl (Beside.exec rfl h).pc
  | clear => exact .inl (Beside.exec rfl h).pc
  | scan stride => exact .inl (Beside.exec rfl h).pc
  | transfer offset => exact .inl (Beside.exec rfl h).pc
  | trap => exact .inl (Beside.exec rfl h).pc

theorem size_of_exec {op : Op} (h : (m.exec op).state? = some u) :
    u.tape.size = m.tape.size := by
  cases op with
  | jumpZero target =>
    cases h
    split <;> rfl
  | jumpNonzero target =>
    cases h
    split <;> rfl
  | run a n => exact (Beside.exec rfl h).size
  | clear => exact (Beside.exec rfl h).size
  | scan stride => exact (Beside.exec rfl h).size
  | transfer offset => exact (Beside.exec rfl h).size
  | trap => exact (Beside.exec rfl h).size

/-- Operations do not count themselves. -/
theorem steps_of_exec {op : Op} (h : (m.exec op).state? = some u) : u.steps = m.steps := by
  cases op with
  | jumpZero target =>
    cases h
    split <;> rfl
  | jumpNonzero target =>
    cases h
    split <;> rfl
  | run a n => exact (Beside.exec rfl h).steps
  | clear => exact (Beside.exec rfl h).steps
  | scan stride => exact (Beside.exec rfl h).steps
  | transfer offset => exact (Beside.exec rfl h).steps
  | trap => exact (Beside.exec rfl h).steps

/-- A step leaves the machine alone, or leaves behind what its operation does,
counted or not. -/
theorem of_step_state? (h : (m.step code).state? = some m') :
    m' = m ∨ ∃ op u, code[m.pc]? = some op ∧ m.HasCell ∧ (m.exec op).state? = some u ∧
      (m' = u ∨ m' = u.tick) := by
  unfold step at h
  split at h
  · cases h
    exact .inl rfl
  · rename_i op hop
    split at h
    · rename_i on
      rcases Outcome.of_state?_bind h with ⟨e, hfailed⟩ | ⟨_, u, hdone, htick⟩
      · exact .inr ⟨op, m', hop, on, by rw [hfailed]; rfl, .inl rfl⟩
      · cases htick
        exact .inr ⟨op, u, hop, on, by rw [hdone]; rfl, .inr rfl⟩
    · cases h
      exact .inl rfl

/-- With a current cell, a step fails only if its operation does. -/
theorem of_step_eq_failed {e : RunError} (on : m.HasCell) (h : m.step code = .failed e m') :
    ∃ op, code[m.pc]? = some op ∧ m.exec op = .failed e m' := by
  unfold step at h
  split at h
  · cases h
  · rename_i op hop
    have on' : m.ptr < m.tape.size := on
    rw [if_pos on'] at h
    rcases Outcome.of_bind_eq_failed h with hfailed | ⟨_, u, -, htick⟩
    · exact ⟨op, hop, hfailed⟩
    · cases htick

/-- The tape has `size` cells, and the pointer is at one of them; if there is
none, the pointer is where it was at the start. -/
structure Placed (size : Nat) (m : Machine) : Prop where
  size_eq : m.tape.size = size
  on_tape : m.HasCell ∨ size = 0 ∧ m.ptr = 0

namespace Placed

variable {size : Nat}

theorem start (size : Nat) (c : Console) : Placed size (Machine.start size c) := by
  refine ⟨Tape.size_blank size, ?_⟩
  show 0 < (Tape.blank size).size ∨ size = 0 ∧ 0 = 0
  rw [Tape.size_blank]
  omega

theorem hasCell (placed : Placed size m) (hsize : 1 ≤ size) : m.HasCell := by
  rcases placed.on_tape with on | ⟨hzero, -⟩
  · exact on
  · omega

/-- The pointer of a session stays on the tape, and the tape keeps its length. -/
theorem kept (code : Code) (size : Nat) : Kept code (Placed size) := by
  refine ⟨?_, ?_⟩
  · intro m m' placed h
    rcases of_step_state? h with rfl | ⟨op, u, -, on, hexec, hm'⟩
    · exact placed
    · have hu : Placed size u :=
        ⟨(size_of_exec hexec).trans placed.size_eq, .inl (on.exec hexec)⟩
      rcases hm' with rfl | rfl
      · exact hu
      · exact ⟨hu.size_eq, hu.on_tape⟩
  · intro m c placed
    exact ⟨placed.size_eq, placed.on_tape⟩

end Placed

end Machine

end Brainfuck
