/-!
# What can go wrong

`IoFault` is a failure of a stream, `CompileError` the reason why a program
has no operation array, `RunError` the reason why a run stops before the
program ends. Each error is a cause with the place where it arose; its wording
is the business of the `message` functions alone.
-/

namespace Brainfuck

/-- The classes of stream failures that callers can tell apart. -/
inductive IoKind where
  | permissionDenied
  | brokenPipe
  | connectionReset
  | unexpectedEof
  | writeZero
  | wouldBlock
  | timedOut
  /-- The call was interrupted before it did anything; it may be repeated. -/
  | interrupted
  | other
  deriving DecidableEq, Repr

/-- A failed call on a stream. -/
structure IoFault where
  kind : IoKind
  text : String
  deriving DecidableEq, Repr

namespace IoFault

/-- A writer took nothing although bytes were offered. -/
def nothingTaken : IoFault := ⟨.writeZero, "failed to write whole buffer"⟩

/-- A call that failed this way is worth repeating. -/
def isTransient (f : IoFault) : Bool := f.kind == .interrupted

/-- The line shown to the user. -/
def message (f : IoFault) : String := "I/O error: " ++ f.text

end IoFault

/-- Why a program is not accepted. Positions count the bytes of the program. -/
inductive CompileError where
  /-- A `[` without partner; of several, the last one. -/
  | unclosed (pos : Nat)
  /-- A `]` without partner. -/
  | unopened (pos : Nat)
  /-- A byte that is no instruction. -/
  | foreign (byte : UInt8) (pos : Nat)
  deriving DecidableEq, Repr

/-- The digit for a value below 16, in lower case. -/
def hexDigit (n : Nat) : Char :=
  if n < 10 then Char.ofNat ('0'.toNat + n) else Char.ofNat ('a'.toNat + (n - 10))

/-- Two lower-case hexadecimal digits. -/
def hexByte (b : UInt8) : String :=
  String.ofList [hexDigit (b.toNat / 16), hexDigit (b.toNat % 16)]

/-- The line shown to the user. -/
def CompileError.message : CompileError → String
  | .unclosed pos => s!"Unmatched '[' at index {pos}."
  | .unopened pos => s!"Unmatched ']' at index {pos}."
  | .foreign byte pos => s!"Unexpected byte 0x{hexByte byte} at index {pos}."

/-- Why a run stopped early. `op` is the index of the operation at fault. -/
inductive RunError where
  /-- The pointer would have left the tape for `cell`. -/
  | offTape (op : Nat) (cell : Int)
  /-- A trap was executed. -/
  | trap (op : Nat)
  /-- A stream failed. -/
  | io (fault : IoFault)
  deriving DecidableEq, Repr

namespace RunError

/-- The line shown to the user. -/
def message : RunError → String
  | .offTape op cell => s!"Data pointer out of range (cell {cell}) at op {op}."
  | .trap op => s!"Invalid op encountered at op {op}."
  | .io fault => fault.message

/-- The stream failure behind an error, if there is one. -/
def cause? : RunError → Option IoFault
  | .io fault => some fault
  | _ => none

end RunError

end Brainfuck
