import Brainfuck.Error

/-!
# Writers

A writer takes bytes until it is full and flushes until its flushes are used
up. Both limits may be absent. A write that is only partly possible takes what
fits; a write that is not possible at all either fails or takes nothing. Any
write may be interrupted a number of times before it is answered in this way.
-/

namespace Brainfuck

/-- A sink for bytes, described by what it will still do. -/
structure Writer where
  /-- How many bytes it still takes; `none` for any number. -/
  room : Option Nat := none
  /-- How many flushes still succeed; `none` for any number. -/
  flushes : Option Nat := none
  /-- A full writer takes nothing instead of failing. -/
  silent : Bool := false
  /-- How a refused call fails. -/
  fault : IoFault := ⟨.brokenPipe, "closed"⟩
  /-- How often each of the next writes is interrupted before it is answered; the
  writes behind them are not interrupted. -/
  interruptions : List Nat := []
  deriving DecidableEq, Repr

namespace Writer

/-- How many of `n` offered bytes one write takes. -/
def takes (w : Writer) (n : Nat) : Nat :=
  match w.room with
  | some k => min k n
  | none => n

/-- The writer after it took `n` bytes. -/
def take (w : Writer) (n : Nat) : Writer := { w with room := w.room.map (· - n) }

@[simp] theorem take_zero (w : Writer) : w.take 0 = w := by
  obtain ⟨room, flushes, silent, fault, interruptions⟩ := w
  cases room <;> rfl

theorem takes_of_room_eq_none {w : Writer} (h : w.room = none) (n : Nat) : w.takes n = n := by
  rw [takes, h]

theorem takes_le (w : Writer) (n : Nat) : w.takes n ≤ n := by
  unfold takes
  split <;> omega

/-- How often the next write is interrupted before it is answered. -/
def delay (w : Writer) : Nat := w.interruptions.headD 0

/-- The writer when the next write is answered. -/
def settle (w : Writer) : Writer := { w with interruptions := w.interruptions.tail }

/-- The failure of a write that takes nothing. -/
def refusal (w : Writer) : IoFault := if w.silent then .nothingTaken else w.fault

/-- Whether the next flush succeeds. -/
def canFlush (w : Writer) : Bool := w.flushes != some 0

/-- The writer after a flush. -/
def flush (w : Writer) : Writer := { w with flushes := w.flushes.map (· - 1) }

/-- A writer that takes everything and never fails, though it may be interrupted. -/
def Reliable (w : Writer) : Prop := w.room = none ∧ w.flushes = none

end Writer

end Brainfuck
