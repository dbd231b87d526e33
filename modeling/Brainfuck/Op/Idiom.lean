import Brainfuck.Bounds
import Brainfuck.Op.Basic

/-!
# Loops that are one operation

Four shapes of loop bodies have a meaning that one operation can carry:

* adding or subtracting any amount: the loop is left when the cell is zero;
* moving in one direction: the loop looks for a zero cell;
* taking one from the cell and giving one to a cell `k` to the right, then
  coming back: the loop moves the cell's value;
* the same to the left.

`Op.fuse?` decides by the shape of the body alone. A loop is replaced as a
whole or not at all.
-/

namespace Brainfuck.Op

/-- A run length as an offset, if it is one. -/
def offset? (n : Nat) : Option Int := if n ≤ offsetMax then some n else none

/-- The operation that does the work of a loop with this body. -/
def fuse? : List Op → Option Op
  | [.run .inc _] | [.run .dec _] => some .clear
  | [.run .right n] => (offset? n).map .scan
  | [.run .left n] => (offset? n).map fun d => .scan (-d)
  | [.run .dec 1, .run .right a, .run .inc 1, .run .left b] =>
    if a = b then (offset? a).map .transfer else none
  | [.run .dec 1, .run .left a, .run .inc 1, .run .right b] =>
    if a = b then (offset? a).map fun d => .transfer (-d) else none
  | _ => none

/-- The number of operations in the longest body that is ever fused. -/
def idiomLength : Nat := 4

end Brainfuck.Op
