import Brainfuck.Instr

/-!
# Operations

A program runs as an array of operations, addressed by index. A run of equal
actions is one operation, a bracket is a jump that knows its partner's index,
and three kinds of loops are single operations of their own.
-/

namespace Brainfuck

/-- One operation of the array that the machine executes. -/
inductive Op where
  /-- `n` times the action. -/
  | run (a : Action) (n : Nat)
  /-- Go to `target` if the current cell is zero; stands for `[`. -/
  | jumpZero (target : Nat)
  /-- Go to `target` if the current cell is not zero; stands for `]`. -/
  | jumpNonzero (target : Nat)
  /-- Set the current cell to zero; stands for `[-]`. -/
  | clear
  /-- Move by `stride` until the current cell is zero; stands for `[>]`. -/
  | scan (stride : Int)
  /-- Add the current cell to the one `offset` away and clear it; stands for `[->+<]`. -/
  | transfer (offset : Int)
  /-- Reserved; executing it is an error. -/
  | trap
  deriving DecidableEq, Repr, Inhabited

/-- An operation array. Jump targets are indices into it. -/
abbrev Code := Array Op

namespace Op

/-- The character for the kind of an operation. -/
def symbol : Op → Char
  | .run a _ => a.symbol
  | .jumpZero _ => '['
  | .jumpNonzero _ => ']'
  | .clear => 's'
  | .scan _ => 'm'
  | .transfer _ => 'd'
  | .trap => 'x'

/-- The argument of an operation, as it is printed. -/
def argument? : Op → Option Int
  | .run _ n | .jumpZero n | .jumpNonzero n => some n
  | .scan d | .transfer d => some d
  | .clear | .trap => none

/-- Whether the operation counts repetitions of one action. -/
def isRun : Op → Bool
  | .run _ _ => true
  | _ => false

/-- The symbol, and after a blank the argument in decimal if there is one. -/
def render (op : Op) : String :=
  match op.argument? with
  | some n => op.symbol.toString ++ " " ++ toString n
  | none => op.symbol.toString

/-- The operation in an array that starts `k` places further back: only jumps
depend on where they are. -/
def shift (k : Nat) : Op → Op
  | .jumpZero target => .jumpZero (target + k)
  | .jumpNonzero target => .jumpNonzero (target + k)
  | op => op

end Op

end Brainfuck
