import Brainfuck.Proofs.Footing

/-!
# The cells that operations go to

A move by a run length, and a transfer over a distance, look at one other cell. A run
length may be too large for an offset and is then cut down to the largest one, and the
cell that an error names is cut down to the range of offsets once more. This module
says what that comes to on a tape that offsets can measure:

* **numbers** — a run length that is cut down leads off the tape, as the whole of it
  does (`add_reach_lt_iff`, `reach_le_iff`). To the right the cell that is named is the
  same (`clampOffset_add_reach`). To the left it is not (`sub_reach_ne_clampOffset`):
  there the offsets go one cell further, and the run length is cut down too early;
* **steps** — the exact outcome of a step on each of the three operations
  (`step_right`, `step_left`, `step_transfer`).

The main results are `bounds_checks_are_exact` and `escape_names_target`.
-/

namespace Brainfuck

/-! ## Numbers -/

/-- A move to the right stays on the tape exactly if it does so by its full length. -/
theorem add_reach_lt_iff {size : Nat} (short : size ≤ offsetMax) (p n : Nat) :
    (p : Int) + reach n < size ↔ p + n < size := by
  unfold reach
  split <;> omega

/-- A move to the left stays on the tape exactly if it does so by its full length. -/
theorem reach_le_iff {p : Nat} (near : p < offsetMax) (n : Nat) : reach n ≤ p ↔ n ≤ p := by
  unfold reach
  split <;> omega

/-- What a run length loses when it is cut down is lost again when the sum is. -/
theorem clampOffset_add_reach (p n : Nat) :
    clampOffset (p + reach n) = clampOffset (p + n) := by
  unfold reach clampOffset
  split <;> omega

/-- To the left, a run length that was cut down leads to an offset from every cell. -/
theorem clampOffset_sub_reach {p : Nat} (near : p ≤ offsetMax) (n : Nat) :
    clampOffset (p - reach n) = p - reach n := by
  have hle := reach_le n
  have hge := reach_nonneg n
  apply clampOffset_of_mem
  · unfold offsetMin
    unfold offsetMax at hle
    omega
  · omega

/-- That is not the offset nearest to the cell that was aimed at. -/
theorem sub_reach_ne_clampOffset {p n : Nat} (near : p ≤ offsetMax) (far : offsetMax < n) :
    (p : Int) - offsetMax ≠ clampOffset (p - n) := by
  unfold clampOffset offsetMin
  unfold offsetMax at near far ⊢
  omega

namespace Tape

/-- There is a cell with this index. -/
def Has (t : Tape) (x : Int) : Prop := 0 ≤ x ∧ x < t.size

instance (t : Tape) (x : Int) : Decidable (t.Has x) := inferInstanceAs (Decidable (_ ∧ _))

end Tape

/-! ## Steps -/

namespace Machine

variable {code : Code} {m : Machine}

section Short

variable (short : m.tape.size ≤ offsetMax) (on : m.HasCell)
include short on

/-- A cell that is not on the tape is named as it is, or cut down. -/
theorem locate_of_short (d : Int) :
    m.locate d = if m.tape.Has (m.ptr + d) then .ok (m.ptr + d : Int).toNat
      else .error (.offTape m.pc (clampOffset (m.ptr + d))) := by
  have hptr : reach m.ptr = m.ptr := by
    have on' : m.ptr < m.tape.size := on
    exact reach_of_le (by omega)
  rw [locate, hptr]
  rfl

theorem move_of_short (d : Int) :
    m.move d = if m.tape.Has (m.ptr + d) then .done () { m with ptr := (m.ptr + d : Int).toNat }
      else .failed (.offTape m.pc (clampOffset (m.ptr + d))) m := by
  rw [move, locate_of_short short on]
  by_cases hcell : m.tape.Has (m.ptr + d)
  · rw [if_pos hcell, if_pos hcell]
  · rw [if_neg hcell, if_neg hcell]

/-- The exact outcome of a move to the right. -/
theorem step_right {n : Nat} (hop : code[m.pc]? = some (.run .right n)) :
    m.step code =
      if m.ptr + n < m.tape.size then .done true (tick { m with ptr := m.ptr + n })
      else .failed (.offTape m.pc (clampOffset (m.ptr + n))) m := by
  have hexec : m.exec (.run .right n) = m.move (reach n) := rfl
  have hlands := add_reach_lt_iff short m.ptr n
  have hge := reach_nonneg n
  rw [step_of_op hop on, hexec, move_of_short short on, clampOffset_add_reach]
  by_cases hin : m.ptr + n < m.tape.size
  · have hhas : m.tape.Has (m.ptr + reach n) := ⟨by omega, hlands.mpr hin⟩
    have hcell : (m.ptr + reach n : Int).toNat = m.ptr + n := by
      rw [reach_of_le (by omega)]
      rfl
    rw [if_pos hhas, if_pos hin, hcell]
    rfl
  · have hhas : ¬ m.tape.Has (m.ptr + reach n) := fun h => hin (hlands.mp h.2)
    rw [if_neg hhas, if_neg hin]
    rfl

/-- The exact outcome of a move to the left. -/
theorem step_left {n : Nat} (hop : code[m.pc]? = some (.run .left n)) :
    m.step code =
      if n ≤ m.ptr then .done true (tick { m with ptr := m.ptr - n })
      else .failed (.offTape m.pc (m.ptr - reach n)) m := by
  have on' : m.ptr < m.tape.size := on
  have near : m.ptr < offsetMax := by omega
  have hexec : m.exec (.run .left n) = m.move (-reach n) := rfl
  have hlands := reach_le_iff near n
  have hge := reach_nonneg n
  rw [step_of_op hop on, hexec, move_of_short short on, ← Int.sub_eq_add_neg,
    clampOffset_sub_reach (Nat.le_of_lt near)]
  by_cases hin : n ≤ m.ptr
  · have hhas : m.tape.Has (m.ptr - reach n) := by
      have := hlands.mpr hin
      exact ⟨by omega, by omega⟩
    have hcell : (m.ptr - reach n : Int).toNat = m.ptr - n := by
      rw [reach_of_le (by omega)]
      omega
    rw [if_pos hhas, if_pos hin, hcell]
    rfl
  · have hhas : ¬ m.tape.Has (m.ptr - reach n) := by
      intro h
      have := h.1
      exact hin (hlands.mp (by omega))
    rw [if_neg hhas, if_neg hin]
    rfl

end Short

/-- The tape after the current cell was added to the one `d` away and cleared. -/
def given (d : Int) (m : Machine) : Tape :=
  let cell := (m.ptr + d : Int).toNat
  (m.tape.set cell (m.tape.get cell + m.cell)).set m.ptr 0

theorem size_given (d : Int) (m : Machine) : (m.given d).size = m.tape.size := by
  simp [given]

/-- A transfer changes two cells, or only one if it goes nowhere. -/
theorem get_given {d : Int} (on : m.HasCell) (there : m.tape.Has (m.ptr + d)) (i : Nat) :
    (m.given d).get i =
      if i = m.ptr then 0
      else if (i : Int) = m.ptr + d then m.tape.get i + m.cell
      else m.tape.get i := by
  have hcell : ((m.ptr + d : Int).toNat : Int) = m.ptr + d := Int.toNat_of_nonneg there.1
  unfold given
  dsimp only
  generalize (m.ptr + d : Int).toNat = cell at hcell
  by_cases hhere : i = m.ptr
  · subst hhere
    rw [if_pos rfl]
    apply Tape.get_set_self
    rw [Tape.size_set]
    exact on
  · rw [if_neg hhere, Tape.get_set_ne _ _ (Ne.symm hhere)]
    by_cases hthere : (i : Int) = m.ptr + d
    · obtain rfl : i = cell := by omega
      have hlt : i < m.tape.size := by
        have := there.2
        omega
      rw [if_pos hthere, Tape.get_set_self _ hlt]
    · rw [if_neg hthere, Tape.get_set_ne]
      omega

/-- The exact outcome of a transfer of something. -/
theorem step_transfer (short : m.tape.size ≤ offsetMax) (on : m.HasCell) {d : Int}
    (hop : code[m.pc]? = some (.transfer d)) (hcell : m.cell ≠ 0) :
    m.step code =
      if m.tape.Has (m.ptr + d) then .done true (tick { m with tape := m.given d })
      else .failed (.offTape m.pc (clampOffset (m.ptr + d))) m := by
  have hexec : m.exec (.transfer d) = m.transfer d := rfl
  rw [step_of_op hop on, hexec, transfer, if_neg hcell, locate_of_short short on]
  by_cases hhas : m.tape.Has (m.ptr + d)
  · rw [if_pos hhas, if_pos hhas]
    rfl
  · rw [if_neg hhas, if_neg hhas]
    rfl

/-- When the next step leaves the tape, it names the operation that it is at and this
cell. -/
def NamesTarget (code : Code) (m : Machine) (target : Int) : Prop :=
  ∀ pc cell u, m.step code = .failed (.offTape pc cell) u → pc = m.pc ∧ cell = target

theorem namesTarget_of_step {ok : Prop} [Decidable ok] {u : Machine} {target : Int}
    (h : m.step code = if ok then .done true u else .failed (.offTape m.pc target) m) :
    m.NamesTarget code target := by
  intro pc cell v hfailed
  rw [h] at hfailed
  split at hfailed
  · cases hfailed
  · cases hfailed
    exact ⟨rfl, rfl⟩

end Machine

/-- **Bounds checks are exact.** From a cell of a tape that offsets can measure, whatever
the argument is: a move to the right or to the left succeeds exactly if the cell that
lies so far away is on the tape, and goes there. A transfer of something succeeds
exactly if the other cell is on the tape; that cell grows by the value, the current one
is cleared, and all others stay. Where an operation does not succeed, it leaves the tape
and has changed nothing. -/
theorem bounds_checks_are_exact {m : Machine} (short : m.tape.size ≤ offsetMax)
    (on : m.HasCell) :
    (∀ (code : Code) (n : Nat), code[m.pc]? = some (.run .right n) → ∃ cell, m.step code =
      if m.ptr + n < m.tape.size then .done true (Machine.tick { m with ptr := m.ptr + n })
      else .failed (.offTape m.pc cell) m) ∧
    (∀ (code : Code) (n : Nat), code[m.pc]? = some (.run .left n) → ∃ cell, m.step code =
      if n ≤ m.ptr then .done true (Machine.tick { m with ptr := m.ptr - n })
      else .failed (.offTape m.pc cell) m) ∧
    ∀ (code : Code) (d : Int), code[m.pc]? = some (.transfer d) → m.cell ≠ 0 → ∃ cell tape,
      (m.step code =
        if 0 ≤ m.ptr + d ∧ m.ptr + d < m.tape.size then
          .done true (Machine.tick { m with tape := tape })
        else .failed (.offTape m.pc cell) m) ∧
      (0 ≤ m.ptr + d ∧ m.ptr + d < m.tape.size → tape.size = m.tape.size ∧
        ∀ i : Nat, tape.get i =
          if i = m.ptr then 0
          else if (i : Int) = m.ptr + d then m.tape.get i + m.cell
          else m.tape.get i) := by
  refine ⟨?_, ?_, ?_⟩
  · intro code n hop
    exact ⟨_, m.step_right short on hop⟩
  · intro code n hop
    exact ⟨_, m.step_left short on hop⟩
  · intro code d hop hcell
    refine ⟨_, m.given d, m.step_transfer short on hop hcell, ?_⟩
    intro there
    exact ⟨m.size_given d, m.get_given on there⟩

/-- The largest run lengths, the smallest distance, and a transfer that wraps around. -/
theorem bounds_checks_are_exact_extremes :
    Machine.HasCell { tape := ⟨#[3, 250, 9]⟩, ptr := 1 } ∧
    (∃ cell, Machine.step #[.run .right counterMax] { tape := ⟨#[3, 250, 9]⟩, ptr := 1 } =
      .failed (.offTape 0 cell) { tape := ⟨#[3, 250, 9]⟩, ptr := 1 }) ∧
    (∃ cell, Machine.step #[.run .left counterMax] { tape := ⟨#[3, 250, 9]⟩, ptr := 1 } =
      .failed (.offTape 0 cell) { tape := ⟨#[3, 250, 9]⟩, ptr := 1 }) ∧
    (∃ cell, Machine.step #[.transfer offsetMin] { tape := ⟨#[3, 250, 9]⟩, ptr := 1 } =
      .failed (.offTape 0 cell) { tape := ⟨#[3, 250, 9]⟩, ptr := 1 }) ∧
    ∃ tape : Tape, Machine.step #[.transfer 1] { tape := ⟨#[3, 250, 9]⟩, ptr := 1 } =
      .done true { tape := tape, ptr := 1, pc := 1, steps := 1 } ∧
      tape.get 0 = 3 ∧ tape.get 1 = 0 ∧ tape.get 2 = 3 := by
  have on : Machine.HasCell { tape := ⟨#[3, 250, 9]⟩, ptr := 1 } := by
    show 1 < 3
    decide
  obtain ⟨hright, hleft, hgive⟩ := bounds_checks_are_exact (by decide) on
  obtain ⟨right, hright⟩ := hright #[.run .right counterMax] counterMax rfl
  obtain ⟨left, hleft⟩ := hleft #[.run .left counterMax] counterMax rfl
  obtain ⟨far, _, hfar, -⟩ := hgive #[.transfer offsetMin] offsetMin rfl (by decide)
  obtain ⟨_, tape, hnext, hget⟩ := hgive #[.transfer 1] 1 rfl (by decide)
  obtain ⟨-, hget⟩ := hget (by decide)
  refine ⟨on, ⟨right, hright⟩, ⟨left, hleft⟩, ⟨far, hfar⟩, tape, hnext, ?_, ?_, ?_⟩
  · exact hget 0
  · exact hget 1
  · exact hget 2

/-- **An escape names the cell that was aimed at.** From a cell of a tape that offsets
can measure: a move to the right and a transfer that leave the tape name their own index
and the cell they aim at, cut down to the range of offsets. So does a move to the left
whose run length is an offset. A longer one always leaves the tape, and names the cell
that lies by the largest offset to the left, which is never the one it aims at. -/
theorem escape_names_target {m : Machine} (short : m.tape.size ≤ offsetMax) (on : m.HasCell) :
    (∀ (code : Code) (n : Nat), code[m.pc]? = some (.run .right n) →
      m.NamesTarget code (clampOffset (m.ptr + n))) ∧
    (∀ (code : Code) (d : Int), code[m.pc]? = some (.transfer d) →
      m.NamesTarget code (clampOffset (m.ptr + d))) ∧
    (∀ (code : Code) (n : Nat), code[m.pc]? = some (.run .left n) → n ≤ offsetMax →
      m.NamesTarget code (clampOffset (m.ptr - n))) ∧
    ∀ (code : Code) (n : Nat), code[m.pc]? = some (.run .left n) → offsetMax < n →
      m.step code = .failed (.offTape m.pc (m.ptr - offsetMax)) m ∧
        (m.ptr : Int) - offsetMax ≠ clampOffset (m.ptr - n) := by
  have on' : m.ptr < m.tape.size := on
  have near : m.ptr ≤ offsetMax := by omega
  refine ⟨?_, ?_, ?_, ?_⟩
  · intro code n hop
    exact Machine.namesTarget_of_step (m.step_right short on hop)
  · intro code d hop
    by_cases hcell : m.cell = 0
    · -- where there is nothing to transfer, the other cell is not looked at
      have hstep : m.step code = .done true m.tick := by
        have hexec : m.exec (.transfer d) = .done () m := if_pos hcell
        rw [m.step_of_op hop on, hexec]
        rfl
      intro pc cell u hfailed
      rw [hstep] at hfailed
      cases hfailed
    · exact Machine.namesTarget_of_step (m.step_transfer short on hop hcell)
  · intro code n hop hn
    have hstep := m.step_left short on hop
    rw [← clampOffset_sub_reach near, reach_of_le hn] at hstep
    exact Machine.namesTarget_of_step hstep
  · intro code n hop far
    refine ⟨?_, sub_reach_ne_clampOffset near far⟩
    have hreach : reach n = offsetMax := if_neg (by omega)
    rw [m.step_left short on hop, if_neg (by omega), hreach]

/-- A move to the right beyond all offsets, a transfer to the smallest one, and moves to
the left by one cell and by too many. -/
theorem escape_names_target_extremes :
    Machine.HasCell { tape := ⟨#[7, 7]⟩ } ∧
    Machine.NamesTarget #[.run .right counterMax] { tape := ⟨#[7, 7]⟩ }
      9223372036854775807 ∧
    Machine.NamesTarget #[.transfer offsetMin] { tape := ⟨#[7, 7]⟩ }
      (-9223372036854775808) ∧
    Machine.NamesTarget #[.run .left 1] { tape := ⟨#[7, 7]⟩ } (-1) ∧
    Machine.step #[.run .left counterMax] { tape := ⟨#[7, 7]⟩ } =
      .failed (.offTape 0 (-9223372036854775807)) { tape := ⟨#[7, 7]⟩ } := by
  have on : Machine.HasCell { tape := ⟨#[7, 7]⟩ } := by
    show 0 < 2
    decide
  obtain ⟨hright, htransfer, hleft, hfar⟩ := escape_names_target (by decide) on
  exact ⟨on, hright #[.run .right counterMax] counterMax rfl,
    htransfer #[.transfer offsetMin] offsetMin rfl,
    hleft #[.run .left 1] 1 rfl (by decide),
    (hfar #[.run .left counterMax] counterMax rfl (by decide)).1⟩

/-- There is one more offset to the left than to the right, and it is never named. -/
theorem left_escape_misses_target :
    9223372036854775808 ≤ counterMax ∧
    (Machine.start 1 {}).step #[.run .left 9223372036854775808] =
      .failed (.offTape 0 (-9223372036854775807)) (Machine.start 1 {}) ∧
    clampOffset ((Machine.start 1 {}).ptr - 9223372036854775808) = -9223372036854775808 := by
  refine ⟨by decide, ?_, by decide⟩
  rfl

end Brainfuck
