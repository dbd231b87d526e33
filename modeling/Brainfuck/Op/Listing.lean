import Brainfuck.Op.Basic
import Brainfuck.Stream.Console

/-!
# Listings

A listing shows an operation array to people: one line for each operation,
with its index in front.
-/

namespace Brainfuck

namespace Op

/-- The line for the operation at index `i`. -/
def line (i : Nat) (op : Op) : String := toString i ++ ": " ++ op.render ++ "\n"

/-- The bytes of the line for the operation at index `i`. -/
def lineBytes (i : Nat) (op : Op) : List UInt8 := (op.line i).toUTF8.data.toList

end Op

namespace Code

/-- The lines of a list of operations, the first of which has index `i`. -/
def linesFrom (i : Nat) (ops : List Op) : List (List UInt8) :=
  (ops.zipIdx i).map fun (op, k) => op.lineBytes k

/-- The whole listing. -/
def listing (code : Code) : List UInt8 := (linesFrom 0 code.toList).flatten

/-- Write lines one after the other. -/
def putLines : List (List UInt8) → Console → Outcome IoFault Console Unit
  | [], c => .done () c
  | line :: lines, c => (c.put line).bind fun _ c => putLines lines c

/-- Write the listing of an operation array and flush. -/
def print (code : Code) (c : Console) : Outcome IoFault Console Unit :=
  (putLines (linesFrom 0 code.toList) c).bind fun _ c => c.flush

end Code

end Brainfuck
