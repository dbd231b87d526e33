import Brainfuck.Instr
import Brainfuck.Stream.Reader

/-!
# Programs

A program is a growing buffer of bytes. It is normally filled from a source
text, where everything but the eight instructions is a comment and left out;
a byte that is pushed by hand is kept as it is, and it is up to the compiler
to object to it.
-/

namespace Brainfuck

/-- A buffer of instruction bytes. -/
structure Program where
  bytes : Array UInt8 := #[]
  deriving DecidableEq, Repr

namespace Program

/-- The bytes of a program, in order. -/
def toList (p : Program) : List UInt8 := p.bytes.toList

/-- A buffer with exactly these bytes. -/
def ofBytes (bytes : List UInt8) : Program := ⟨bytes.toArray⟩

/-- The program in a source text: its instructions, without the comments. -/
def ofSource (source : List UInt8) : Program := ofBytes (source.filter isSignificant)

/-- The number of bytes. -/
def size (p : Program) : Nat := p.bytes.size

/-- Whether there are no bytes. -/
def isEmpty (p : Program) : Bool := p.bytes.isEmpty

/-- Append one byte, whatever it is. -/
def push (p : Program) (b : UInt8) : Program := ⟨p.bytes.push b⟩

/-- The byte at an index, if there is one. -/
def get? (p : Program) (i : Nat) : Option UInt8 := p.bytes[i]?

@[simp] theorem toList_ofBytes (bytes : List UInt8) : (ofBytes bytes).toList = bytes := rfl

@[simp] theorem toList_ofSource (source : List UInt8) :
    (ofSource source).toList = source.filter isSignificant := rfl

@[simp] theorem toList_push (p : Program) (b : UInt8) : (p.push b).toList = p.toList ++ [b] := by
  simp [push, toList]

/-- How many bytes are fetched at a time when a source text is read. -/
def chunkSize : Nat := 4096

/-- Append the instructions that a reader brings up to its next end of input.
Interrupted reads are repeated. -/
def absorb (p : Program) (r : Reader) : Except IoFault Program :=
  match _h : (r.read chunkSize).1 with
  | .bytes [] => .ok p
  | .bytes (b :: bs) => absorb ⟨p.bytes ++ (b :: bs).filter isSignificant⟩ (r.read chunkSize).2
  | .fault f => if f.isTransient then p.absorb (r.read chunkSize).2 else .error f
termination_by r.weight
decreasing_by
  · exact Reader.weight_read_bytes _h
  · exact Reader.weight_read_fault _h

/-- The program in the source text that a reader brings. -/
def load (r : Reader) : Except IoFault Program := absorb {} r

end Program

end Brainfuck
