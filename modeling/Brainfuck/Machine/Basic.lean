import Brainfuck.Bounds
import Brainfuck.Op.Basic
import Brainfuck.Stream.Console
import Brainfuck.Tape

/-!
# The machine

A machine is a tape with a pointer, a program counter, a step counter and a
console. The operation array is not part of it: the array never changes while
it runs, so every function on machines takes it beside the machine.
-/

namespace Brainfuck

/-- Everything that changes during a run. -/
structure Machine where
  tape : Tape
  /-- The index of the current cell. -/
  ptr : Nat := 0
  /-- The index of the next operation. -/
  pc : Nat := 0
  /-- How many operations were executed so far. -/
  steps : Nat := 0
  console : Console := {}
  deriving DecidableEq, Repr

namespace Machine

/-- The number of cells of a machine unless something else is asked for. -/
def defaultSize : Nat := 30000

/-- A machine at its start. -/
def start (size : Nat) (console : Console) : Machine :=
  { tape := .blank size, console := console }

/-- The value of the current cell. -/
def cell (m : Machine) : UInt8 := m.tape.get m.ptr

/-- The machine with another value in the current cell. -/
def setCell (m : Machine) (v : UInt8) : Machine := { m with tape := m.tape.set m.ptr v }

/-- Whether there is no next operation. -/
def atEnd (code : Code) (m : Machine) : Bool := code.size ≤ m.pc

/-- The cell `offset` away from the current one, if it is on the tape. The error
names that cell, where first the pointer and then the sum is kept within the
range of offsets. -/
def locate (m : Machine) (offset : Int) : Except RunError Nat :=
  let target : Int := m.ptr + offset
  if 0 ≤ target ∧ target < m.tape.size then .ok target.toNat
  else .error (.offTape m.pc (clampOffset (reach m.ptr + offset)))

end Machine

end Brainfuck
