import Brainfuck.Error
import Brainfuck.Log
import Brainfuck.Op.Idiom

/-!
# One pass over a program

The compiler goes through the bytes of a program once. Equal actions in a row
become one operation. A `[` leaves a jump without target and is remembered
until its `]` comes; then the loop is either fused into one operation, which
takes the place of everything since the `[`, or the two jumps learn each
other's index.
-/

namespace Brainfuck

/-- A loop that is not closed yet. -/
structure Opening where
  /-- The index of its jump in the operation array. -/
  slot : Nat
  /-- The position of its `[` in the program. -/
  pos : Nat
  deriving DecidableEq, Repr

/-- The state of the compiler between two tokens. -/
structure Pass where
  /-- How many bytes of the program are behind. -/
  pos : Nat := 0
  /-- The operations so far; the jump of an open loop still has target 0. -/
  ops : Code := #[]
  /-- The open loops, innermost first. -/
  openings : List Opening := []
  deriving DecidableEq, Repr

/-- How many bytes belong to the token that starts with `b`: brackets stand
alone, and all other bytes go together with their equals. -/
def tokenLength (b : UInt8) (rest : List UInt8) : Nat :=
  if b = Instr.opening.byte ∨ b = Instr.closing.byte then 1
  else 1 + (rest.takeWhile (· == b)).length

/-- The first operations behind the jump at `slot`. One more than fits into an
idiom is enough to see that a body is no idiom. -/
def Code.bodyAt (ops : Code) (slot : Nat) : List Op :=
  (ops.extract (slot + 1) (slot + 1 + (Op.idiomLength + 1))).toList

/-- Put one operation in the place of the loop that starts at `slot`. -/
def Code.fuseAt (ops : Code) (slot : Nat) (op : Op) : Code := (ops.shrink slot).push op

/-- Close the loop that starts at `slot` with a jump back, and let the two jumps
know each other. -/
def Code.linkAt (ops : Code) (slot : Nat) : Code :=
  let close := ops.size
  (ops.setIfInBounds slot (.jumpZero close)).push (.jumpNonzero slot)

namespace Pass

/-- Take in one token, `n` bytes `b`. A loop that was fused is announced. -/
def advance : Pass → UInt8 → Nat → Except CompileError (Pass × Option Event)
  | ⟨pos, ops, openings⟩, b, n =>
    match Instr.ofByte? b with
    | none => .error (.foreign b pos)
    | some (.act a) => .ok (⟨pos + n, ops.push (.run a n), openings⟩, none)
    | some .opening =>
      let slot := ops.size
      .ok (⟨pos + n, ops.push (.jumpZero 0), ⟨slot, pos⟩ :: openings⟩, none)
    | some .closing =>
      match openings with
      | [] => .error (.unopened pos)
      | o :: outer =>
        match Op.fuse? (ops.bodyAt o.slot) with
        | some op => .ok (⟨pos + n, ops.fuseAt o.slot op, outer⟩, some (.fused pos o.slot op))
        | none => .ok (⟨pos + n, ops.linkAt o.slot, outer⟩, none)

/-- The operation array, once the program is at its end. -/
def finish (p : Pass) : Except CompileError Code :=
  match p.openings with
  | [] => .ok p.ops
  | o :: _ => .error (.unclosed o.pos)

end Pass

end Brainfuck
