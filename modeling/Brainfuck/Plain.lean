import Brainfuck.Instr
import Brainfuck.Tape

/-!
# Plain execution

The meaning of a program without any compiling: its bytes are executed one at
a time. The input is a list of bytes with a permanent end, and the output
takes everything. This is what an operation array is measured against.
-/

namespace Brainfuck.Plain

/-- Where a plain execution stands. -/
structure State where
  /-- The index of the next byte of the program. -/
  pos : Nat := 0
  tape : Tape
  /-- The index of the current cell. -/
  ptr : Nat := 0
  /-- The input that is left. -/
  unread : List UInt8 := []
  /-- The output so far. -/
  written : List UInt8 := []
  deriving DecidableEq, Repr

/-- What comes after a state. -/
inductive Next where
  | moved (s : State)
  /-- The program is at its end. -/
  | halted
  /-- The pointer would leave the tape. -/
  | escaped
  /-- The next byte is no instruction, or a bracket without partner. -/
  | stuck
  deriving DecidableEq, Repr

/-- The distance to the bracket `far` that brings `depth + 1` open loops down to
`depth`, counting brackets `near` as the start of further ones. -/
def partner (near far : UInt8) : Nat → List UInt8 → Option Nat
  | _, [] => none
  | depth, b :: rest =>
    if b = far then
      match depth with
      | 0 => some 0
      | depth + 1 => (partner near far depth rest).map (· + 1)
    else if b = near then (partner near far (depth + 1) rest).map (· + 1)
    else (partner near far depth rest).map (· + 1)

/-- The position of the `]` for the `[` at a position. -/
def closing? (program : List UInt8) (pos : Nat) : Option Nat :=
  (partner Instr.opening.byte Instr.closing.byte 0 (program.drop (pos + 1))).map (pos + 1 + ·)

/-- The position of the `[` for the `]` at a position. -/
def opening? (program : List UInt8) (pos : Nat) : Option Nat :=
  (partner Instr.closing.byte Instr.opening.byte 0 (program.take pos).reverse).map (pos - 1 - ·)

namespace State

/-- The value of the current cell. -/
def cell (s : State) : UInt8 := s.tape.get s.ptr

/-- The state with another value in the current cell. -/
def setCell (s : State) (v : UInt8) : State := { s with tape := s.tape.set s.ptr v }

/-- The state at the start of a program, on a tape of `size` cells. -/
def start (size : Nat) (input : List UInt8) : State := { tape := .blank size, unread := input }

/-- Do an action once; there is no outcome if the pointer leaves the tape. -/
def act (s : State) : Action → Option State
  | .right => if s.ptr + 1 < s.tape.size then some { s with ptr := s.ptr + 1 } else none
  | .left => if 0 < s.ptr then some { s with ptr := s.ptr - 1 } else none
  | .inc => some (s.setCell (s.cell + 1))
  | .dec => some (s.setCell (s.cell - 1))
  | .write => some { s with written := s.written ++ [s.cell] }
  | .read =>
    match s.unread with
    | [] => some s
    | b :: rest => some { s.setCell b with unread := rest }

/-- Go on behind the byte at a position. -/
def behind (s : State) (pos : Nat) : State := { s with pos := pos + 1 }

end State

/-- Execute the next byte of a program. -/
def step (program : List UInt8) (s : State) : Next :=
  match program[s.pos]? with
  | none => .halted
  | some b =>
    match Instr.ofByte? b with
    | none => .stuck
    | some (.act a) =>
      match s.act a with
      | some t => .moved (t.behind s.pos)
      | none => .escaped
    | some .opening =>
      if s.cell = 0 then
        match closing? program s.pos with
        | some close => .moved (s.behind close)
        | none => .stuck
      else .moved (s.behind s.pos)
    | some .closing =>
      if s.cell = 0 then .moved (s.behind s.pos)
      else
        match opening? program s.pos with
        | some opening => .moved (s.behind opening)
        | none => .stuck

/-- The state after exactly `n` executed bytes, if the execution gets that far. -/
def after (program : List UInt8) : Nat → State → Option State
  | 0, s => some s
  | n + 1, s =>
    match step program s with
    | .moved t => after program n t
    | _ => none

/-- The execution ends in `t` after `n` bytes. -/
def Halts (program : List UInt8) (s : State) (n : Nat) (t : State) : Prop :=
  after program n s = some t ∧ step program t = .halted

/-- After `n` bytes, in `t`, the execution leaves the tape. -/
def Escapes (program : List UInt8) (s : State) (n : Nat) (t : State) : Prop :=
  after program n s = some t ∧ step program t = .escaped

end Brainfuck.Plain
