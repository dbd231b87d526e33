import Brainfuck.Error

/-!
# Readers

A reader is the list of answers that it has in store. Data is handed out in
the pieces in which it was stored, so one read never joins two pieces and may
bring less than was asked for. The end of the input is an answer like any
other: more data may follow it. A reader with nothing left in store is at its
end for good.

`Reader.atoms` is what a reader amounts to when pieces and interruptions are
left out of account.
-/

namespace Brainfuck

/-- One stored answer of a reader. -/
inductive Feed where
  /-- Bytes to hand out, in one read or in several. -/
  | data (bytes : List UInt8)
  /-- One read that finds the end of the input. -/
  | eof
  /-- One read that fails. -/
  | fail (fault : IoFault)
  deriving DecidableEq, Repr

/-- The answer to one read; no bytes means the end of the input. -/
inductive Reply where
  | bytes (bs : List UInt8)
  | fault (f : IoFault)
  deriving DecidableEq, Repr

/-- A source of bytes. -/
structure Reader where
  feeds : List Feed := []
  deriving DecidableEq, Repr

/-- What a reader delivers, seen byte by byte. -/
inductive Atom where
  | byte (b : UInt8)
  | eof
  | fault (f : IoFault)
  deriving DecidableEq, Repr

namespace Reader

/-- A reader that has these bytes, and then its end. -/
def ofBytes (bytes : List UInt8) : Reader := ⟨[.data bytes]⟩

/-- One read of at most `cap` bytes from a list of stored answers. A piece of
data without bytes is passed over. -/
def readFrom (cap : Nat) : List Feed → Reply × List Feed
  | [] => (.bytes [], [])
  | .data [] :: rest => readFrom cap rest
  | .data (b :: bs) :: rest => (.bytes ((b :: bs).take cap), .data ((b :: bs).drop cap) :: rest)
  | .eof :: rest => (.bytes [], rest)
  | .fail f :: rest => (.fault f, rest)

/-- One read of at most `cap` bytes. -/
def read (r : Reader) (cap : Nat) : Reply × Reader :=
  (readFrom cap r.feeds).map id Reader.mk

/-- The deliveries a stored answer stands for. Nothing is left of an
interruption, since whoever reads tries again. -/
def atomsOf : Feed → List Atom
  | .data bytes => bytes.map .byte
  | .eof => [.eof]
  | .fail f => if f.isTransient then [] else [.fault f]

/-- Everything a reader still delivers. -/
def atoms (r : Reader) : List Atom := r.feeds.flatMap atomsOf

/-- How much is left in a list of stored answers: one for each answer and one
for each byte. -/
def weightOf : List Feed → Nat
  | [] => 0
  | .data bytes :: rest => bytes.length + 1 + weightOf rest
  | .eof :: rest => 1 + weightOf rest
  | .fail _ :: rest => 1 + weightOf rest

/-- How much is left in store. -/
def weight (r : Reader) : Nat := weightOf r.feeds

/-- A failed read uses up a stored answer. -/
theorem weightOf_readFrom_fault {cap : Nat} {feeds : List Feed} {f : IoFault}
    (h : (readFrom cap feeds).1 = .fault f) :
    weightOf (readFrom cap feeds).2 < weightOf feeds := by
  induction feeds with
  | nil => simp [readFrom] at h
  | cons feed rest ih =>
    match feed with
    | .data [] =>
      have := ih h
      simp only [readFrom, weightOf, List.length_nil] at this ⊢
      omega
    | .data (_ :: _) => simp [readFrom] at h
    | .eof => simp [readFrom] at h
    | .fail _ => simp [readFrom, weightOf]

/-- A read that brings bytes takes them out of the store. -/
theorem weightOf_readFrom_bytes {cap : Nat} {feeds : List Feed} {b : UInt8} {bs : List UInt8}
    (h : (readFrom cap feeds).1 = .bytes (b :: bs)) :
    weightOf (readFrom cap feeds).2 < weightOf feeds := by
  induction feeds with
  | nil => simp [readFrom] at h
  | cons feed rest ih =>
    match feed with
    | .data [] =>
      have := ih h
      simp only [readFrom, weightOf, List.length_nil] at this ⊢
      omega
    | .data (c :: cs) =>
      cases cap with
      | zero => simp [readFrom] at h
      | succ cap =>
        simp only [readFrom, weightOf, List.drop_succ_cons, List.length_drop, List.length_cons]
        omega
    | .eof => simp [readFrom] at h
    | .fail _ => simp [readFrom] at h

/-- A failed read leaves less in store. -/
theorem weight_read_fault {r : Reader} {cap : Nat} {f : IoFault}
    (h : (r.read cap).1 = .fault f) : (r.read cap).2.weight < r.weight :=
  weightOf_readFrom_fault h

/-- A read that brings bytes leaves less in store. -/
theorem weight_read_bytes {r : Reader} {cap : Nat} {b : UInt8} {bs : List UInt8}
    (h : (r.read cap).1 = .bytes (b :: bs)) : (r.read cap).2.weight < r.weight :=
  weightOf_readFrom_bytes h

end Reader

end Brainfuck
