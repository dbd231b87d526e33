import Brainfuck.Machine.Basic

/-!
# One step

`Machine.step` executes the next operation, if there is one. An operation that
fails leaves the program counter and the step counter alone; what it did to
the tape, the pointer and the console before it failed stays.
-/

namespace Brainfuck.Machine

/-- Move the pointer by `offset`. -/
def move (offset : Int) (m : Machine) : Outcome RunError Machine Unit :=
  match m.locate offset with
  | .ok cell => .done () { m with ptr := cell }
  | .error e => .failed e m

/-- Read `n` bytes into the current cell, each over the one before. The first
end of input ends the reading and leaves the cell as it is. -/
def readCell : Nat → Machine → Outcome RunError Machine Unit
  | 0, m => .done () m
  | n + 1, m =>
    match m.console.getByte with
    | .done (some b) c => readCell n { m with tape := m.tape.set m.ptr b, console := c }
    | .done none c => .done () { m with console := c }
    | .failed f c => .failed (.io f) { m with console := c }
    | .unfinished => .unfinished

/-- Write the current cell `n` times. -/
def writeCell : Nat → Machine → Outcome RunError Machine Unit
  | 0, m => .done () m
  | n + 1, m =>
    match m.console.putByte m.cell with
    | .done _ c => writeCell n { m with console := c }
    | .failed f c => .failed (.io f) { m with console := c }
    | .unfinished => .unfinished

/-- Move by `stride` until the current cell is zero, looking at no more than
`fuel` cells. -/
def scanFor (stride : Int) : Nat → Machine → Outcome RunError Machine Unit
  | 0, _ => .unfinished
  | fuel + 1, m =>
    if m.cell = 0 then .done () m
    else
      match m.locate stride with
      | .ok cell => scanFor stride fuel { m with ptr := cell }
      | .error e => .failed e m

/-- Move by `stride` until the current cell is zero. A scan that does not stand
still never looks at a cell twice, so whoever has looked at as many cells as
there are on the tape stands still on a nonzero cell, and will do so forever. -/
def scan (stride : Int) (m : Machine) : Outcome RunError Machine Unit :=
  m.scanFor stride m.tape.size

/-- Add the current cell to the one `offset` away, then clear it. A cell that is
zero already is left alone, wherever the other one would be. -/
def transfer (offset : Int) (m : Machine) : Outcome RunError Machine Unit :=
  let v := m.cell
  if v = 0 then .done () m
  else
    match m.locate offset with
    | .ok cell => .done () { m with tape := (m.tape.set cell (m.tape.get cell + v)).set m.ptr 0 }
    | .error e => .failed e m

/-- Go to an operation. -/
def jump (target : Nat) (m : Machine) : Machine := { m with pc := target }

/-- Do `n` times an action. -/
def act (m : Machine) (n : Nat) : Action → Outcome RunError Machine Unit
  | .right => m.move (reach n)
  | .left => m.move (-reach n)
  | .inc => .done () (m.setCell (m.cell + UInt8.ofNat n))
  | .dec => .done () (m.setCell (m.cell - UInt8.ofNat n))
  | .write => writeCell n m
  | .read => readCell n m

/-- Execute an operation, without counting it. A jump goes to its partner; the
counter moves on from there. -/
def exec (m : Machine) : Op → Outcome RunError Machine Unit
  | .run a n => m.act n a
  | .jumpZero target => .done () (if m.cell = 0 then m.jump target else m)
  | .jumpNonzero target => .done () (if m.cell = 0 then m else m.jump target)
  | .clear => .done () (m.setCell 0)
  | .scan stride => m.scan stride
  | .transfer offset => m.transfer offset
  | .trap => .failed (.trap m.pc) m

/-- Count an executed operation. -/
def tick (m : Machine) : Machine := { m with pc := bump m.pc, steps := bump m.steps }

/-- Execute the next operation. The answer is whether there was one. Without a
current cell nothing can be executed. -/
def step (code : Code) (m : Machine) : Outcome RunError Machine Bool :=
  match code[m.pc]? with
  | none => .done false m
  | some op =>
    if m.ptr < m.tape.size then
      (m.exec op).bind fun _ m => .done true m.tick
    else
      .failed (.offTape m.pc (reach m.ptr)) m

end Brainfuck.Machine
