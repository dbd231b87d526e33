/-!
# The eight instructions

A source text is a sequence of bytes, eight of which mean something. Six of
them act on the tape or on the streams and may be repeated; the other two are
the brackets of a loop. `Instr.ofByte?` reads a byte and `Instr.byte` writes
it back. Every other byte is a comment.
-/

namespace Brainfuck

/-- What a repeatable instruction does once. -/
inductive Action where
  /-- Move the pointer one cell to the right. -/
  | right
  /-- Move the pointer one cell to the left. -/
  | left
  /-- Add one to the current cell, modulo 256. -/
  | inc
  /-- Subtract one from the current cell, modulo 256. -/
  | dec
  /-- Send the current cell to the output. -/
  | write
  /-- Store the next input byte in the current cell. -/
  | read
  deriving DecidableEq, Repr

/-- One instruction of a program. -/
inductive Instr where
  | act (a : Action)
  /-- Opens a loop. -/
  | opening
  /-- Closes a loop. -/
  | closing
  deriving DecidableEq, Repr

namespace Action

/-- The character an action is written with. -/
def symbol : Action → Char
  | .right => '>'
  | .left => '<'
  | .inc => '+'
  | .dec => '-'
  | .write => '.'
  | .read => ','

/-- The byte an action is written with. -/
def byte (a : Action) : UInt8 := a.symbol.toUInt8

end Action

namespace Instr

/-- The byte an instruction is written with. -/
def byte : Instr → UInt8
  | .act a => a.byte
  | .opening => '['.toUInt8
  | .closing => ']'.toUInt8

/-- Every instruction, in the order in which the alphabet is listed. -/
def all : List Instr :=
  [.act .right, .act .left, .act .inc, .act .dec, .act .write, .act .read, .opening, .closing]

/-- The instruction a byte stands for; `none` for a comment byte. -/
def ofByte? (b : UInt8) : Option Instr :=
  all.find? fun i => i.byte == b

/-- Reading what was written gives the instruction back. -/
@[simp] theorem ofByte?_byte (i : Instr) : ofByte? i.byte = some i := by
  match i with
  | .act a => cases a <;> rfl
  | .opening => rfl
  | .closing => rfl

/-- A byte stands for an instruction only if it is how the instruction is written. -/
theorem byte_of_ofByte? {b : UInt8} {i : Instr} (h : ofByte? b = some i) : i.byte = b := by
  have := List.find?_some h
  simpa using this

end Instr

/-- The eight significant bytes: `> < + - . , [ ]`. -/
def alphabet : List UInt8 := Instr.all.map Instr.byte

example : alphabet = "><+-.,[]".toUTF8.data.toList := by decide

/-- Whether a byte is one of the eight instructions. -/
def isSignificant (b : UInt8) : Bool := (Instr.ofByte? b).isSome

theorem isSignificant_iff (b : UInt8) : isSignificant b = true ↔ b ∈ alphabet := by
  simp [isSignificant, Instr.ofByte?, alphabet]

end Brainfuck
