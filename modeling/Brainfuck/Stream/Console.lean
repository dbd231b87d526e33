import Brainfuck.Outcome
import Brainfuck.Stream.Reader
import Brainfuck.Stream.Writer

/-!
# The console

A console is a reader and a writer together with the list of all calls that
were made on them. That list is the only record of what happened: the bytes
that came out, and how many of them are flushed, are read off it.

Two rules hold for every use of a console. Output is flushed before each byte
that is read, so a prompt is visible before its answer is awaited. A call that
was interrupted is made again, which for a writer that does nothing but
interrupt means forever.
-/

namespace Brainfuck

/-- One call on a reader or a writer, with its answer. -/
inductive Call where
  /-- A read of one byte. -/
  | read (reply : Reply)
  /-- A write that took these bytes. -/
  | wrote (bytes : List UInt8)
  /-- A write that took nothing of what was offered. -/
  | refused
  /-- A flush, and whether it succeeded. -/
  | flush (ok : Bool)
  deriving DecidableEq, Repr

/-- Readings of a list of calls, the latest call first. -/
abbrev Calls := List Call

namespace Calls

/-- The bytes that were taken, in the order of writing. -/
def output (calls : Calls) : List UInt8 :=
  calls.foldl (fun later call => match call with
    | .wrote bytes => bytes ++ later
    | _ => later) []

/-- How many bytes were taken. -/
def taken (calls : Calls) : Nat :=
  calls.foldl (fun n call => match call with
    | .wrote bytes => n + bytes.length
    | _ => n) 0

/-- How many flushes succeeded. -/
def flushes (calls : Calls) : Nat := calls.countP (· == .flush true)

/-- How many bytes were taken before the last flush that succeeded. -/
def flushed : Calls → Nat
  | [] => 0
  | .flush true :: earlier => taken earlier
  | _ :: earlier => flushed earlier

/-- What was collected from later calls stays behind what is collected next. -/
private theorem foldl_output (calls : Calls) (later : List UInt8) :
    calls.foldl (fun later call => match call with
      | .wrote bytes => bytes ++ later
      | _ => later) later = output calls ++ later := by
  unfold output
  induction calls generalizing later with
  | nil => rfl
  | cons call earlier ih =>
    rw [List.foldl_cons, List.foldl_cons]
    match call with
    | .wrote bytes => rw [ih (bytes ++ later), ih (bytes ++ []), List.append_nil, List.append_assoc]
    | .read _ => exact ih later
    | .refused => exact ih later
    | .flush _ => exact ih later

/-- The bytes of a write come behind those of all earlier calls. -/
@[simp] theorem output_wrote (bytes : List UInt8) (earlier : Calls) :
    output (.wrote bytes :: earlier) = output earlier ++ bytes := by
  show List.foldl _ (bytes ++ []) earlier = _
  rw [List.append_nil]
  exact foldl_output earlier bytes

@[simp] theorem output_nil : output [] = [] := rfl

@[simp] theorem output_read (reply : Reply) (earlier : Calls) :
    output (.read reply :: earlier) = output earlier := rfl

@[simp] theorem output_refused (earlier : Calls) :
    output (.refused :: earlier) = output earlier := rfl

@[simp] theorem output_flush (ok : Bool) (earlier : Calls) :
    output (.flush ok :: earlier) = output earlier := rfl

/-- Writes that were interrupted bring out nothing. -/
@[simp] theorem output_refusals (n : Nat) (earlier : Calls) :
    output (List.replicate n .refused ++ earlier) = output earlier := by
  induction n with
  | zero => rfl
  | succ n ih =>
    rw [List.replicate_succ, List.cons_append, output_refused]
    exact ih

@[simp] theorem flushes_flush (earlier : Calls) :
    flushes (.flush true :: earlier) = flushes earlier + 1 := by
  simp [flushes]

/-- Writes do not flush. -/
@[simp] theorem flushes_wrote (bytes : List UInt8) (earlier : Calls) :
    flushes (.wrote bytes :: earlier) = flushes earlier := by
  simp [flushes]

@[simp] theorem flushes_refused (earlier : Calls) :
    flushes (.refused :: earlier) = flushes earlier := by
  simp [flushes]

@[simp] theorem flushes_refusals (n : Nat) (earlier : Calls) :
    flushes (List.replicate n .refused ++ earlier) = flushes earlier := by
  simp [flushes, List.countP_replicate]

private theorem foldl_taken (calls : Calls) (n : Nat) :
    calls.foldl (fun n call => match call with
      | .wrote bytes => n + bytes.length
      | _ => n) n = n + (output calls).length := by
  induction calls generalizing n with
  | nil => rfl
  | cons call earlier ih =>
    rw [List.foldl_cons]
    match call with
    | .wrote bytes =>
      rw [output_wrote, List.length_append, ih]
      show n + bytes.length + _ = _
      omega
    | .read _ => exact ih n
    | .refused => exact ih n
    | .flush _ => exact ih n

/-- The number of bytes taken is the length of the output. -/
theorem taken_eq (calls : Calls) : taken calls = (output calls).length := by
  unfold taken
  rw [foldl_taken, Nat.zero_add]

/-! What is read off the calls depends on some of them only. -/

theorem filter_refusals {p : Call → Bool} (keeps : p .refused = true) (n : Nat)
    (earlier : Calls) :
    List.filter p (List.replicate n .refused ++ earlier) =
      List.replicate n .refused ++ List.filter p earlier := by
  rw [List.filter_append, List.filter_replicate, if_pos keeps]

theorem output_filter {p : Call → Bool} (keeps : ∀ bytes, p (.wrote bytes) = true)
    (calls : Calls) : output (calls.filter p) = output calls := by
  induction calls with
  | nil => rfl
  | cons call earlier ih =>
    cases call with
    | wrote bytes => rw [List.filter_cons_of_pos (keeps bytes), output_wrote, output_wrote, ih]
    | read reply =>
      rw [List.filter_cons, output_read, ← ih]
      split <;> rfl
    | refused =>
      rw [List.filter_cons, output_refused, ← ih]
      split <;> rfl
    | flush ok =>
      rw [List.filter_cons, output_flush, ← ih]
      split <;> rfl

theorem flushes_filter {p : Call → Bool} (keeps : p (.flush true) = true) (calls : Calls) :
    flushes (calls.filter p) = flushes calls := by
  unfold flushes
  rw [List.countP_filter]
  apply List.countP_congr
  intro call _
  rw [Bool.and_eq_true]
  refine ⟨fun h => h.1, ?_⟩
  intro hflush
  rw [beq_iff_eq.mp hflush]
  exact ⟨rfl, keeps⟩

theorem flushed_of_ne {call : Call} (h : call ≠ .flush true) (earlier : Calls) :
    flushed (call :: earlier) = flushed earlier := by
  rw [flushed]
  exact h

theorem flushed_filter {p : Call → Bool} (keepsWrote : ∀ bytes, p (.wrote bytes) = true)
    (keepsFlush : p (.flush true) = true) (calls : Calls) :
    flushed (calls.filter p) = flushed calls := by
  induction calls with
  | nil => rfl
  | cons call earlier ih =>
    by_cases hflush : call = .flush true
    · subst hflush
      rw [List.filter_cons_of_pos keepsFlush, flushed, flushed, taken_eq, taken_eq,
        output_filter keepsWrote]
    · rw [flushed_of_ne hflush, List.filter_cons, ← ih]
      split
      · exact flushed_of_ne hflush _
      · rfl

end Calls

/-- A reader, a writer, and the calls made on them so far, latest first. -/
structure Console where
  reader : Reader := {}
  writer : Writer := {}
  calls : Calls := []
  deriving DecidableEq, Repr

namespace Console

/-- The bytes that came out. -/
def output (c : Console) : List UInt8 := c.calls.output

/-- How many flushes succeeded. -/
def flushes (c : Console) : Nat := c.calls.flushes

/-- How many bytes had come out at the last flush. -/
def flushed (c : Console) : Nat := c.calls.flushed

/-- Flush the writer. A failed flush is not repeated. -/
def flush (c : Console) : Outcome IoFault Console Unit :=
  if c.writer.canFlush then
    .done () { c with writer := c.writer.flush, calls := .flush true :: c.calls }
  else
    .failed c.writer.fault { c with calls := .flush false :: c.calls }

/-- The console when the next write is answered. Until then the write took nothing
and was made again. -/
def persist (c : Console) : Console :=
  { c with writer := c.writer.settle,
           calls := List.replicate c.writer.delay .refused ++ c.calls }

/-! Interruptions change neither what the writer has room for nor how it fails. -/

@[simp] theorem reader_persist (c : Console) : c.persist.reader = c.reader := rfl

@[simp] theorem room_persist (c : Console) : c.persist.writer.room = c.writer.room := rfl

@[simp] theorem takes_persist (c : Console) (n : Nat) :
    c.persist.writer.takes n = c.writer.takes n := rfl

@[simp] theorem refusal_persist (c : Console) : c.persist.writer.refusal = c.writer.refusal := rfl

@[simp] theorem output_persist (c : Console) : c.persist.output = c.output :=
  Calls.output_refusals _ c.calls

/-- Consoles whose writers are interrupted in the same way keep the same calls. -/
theorem filter_calls_persist {c d : Console} {p : Call → Bool} (keeps : p .refused = true)
    (writer : c.writer = d.writer) (calls : List.filter p c.calls = List.filter p d.calls) :
    List.filter p c.persist.calls = List.filter p d.persist.calls := by
  rw [persist, persist, Calls.filter_refusals keeps, Calls.filter_refusals keeps, writer, calls]

/-- One write, made again while it is interrupted. It answers how many bytes were
taken. -/
def write (bytes : List UInt8) (c : Console) : Nat × Console :=
  let c := c.persist
  let k := c.writer.takes bytes.length
  let call := if k = 0 then Call.refused else .wrote (bytes.take k)
  (k, { c with writer := c.writer.take k, calls := call :: c.calls })

/-- Write all bytes behind the first `taken`, which a write took before. What a write does not
take is offered again. A write that takes nothing ends the writing, unless it says that
it was interrupted; then it will say so forever. -/
def putFrom : Nat → List UInt8 → Console → Outcome IoFault Console Unit
  | _, [], c => .done () c
  | taken + 1, _ :: bs, c => putFrom taken bs c
  | 0, b :: bs, c =>
    match c.write (b :: bs) with
    | (0, d) => if d.writer.refusal.isTransient then .unfinished else .failed d.writer.refusal d
    | (k + 1, d) => putFrom k bs d

/-- Write all bytes. -/
def put (bytes : List UInt8) (c : Console) : Outcome IoFault Console Unit := c.putFrom 0 bytes

/-- The console after one read of one byte, whatever the answer. -/
def heard (c : Console) : Console :=
  { c with reader := (c.reader.read 1).2, calls := .read (c.reader.read 1).1 :: c.calls }

/-- Ask for one byte until the answer is not an interruption; `none` at the
end of the input. Each interruption uses up a stored answer of the reader, so
the asking ends. -/
def ask (c : Console) : Outcome IoFault Console (Option UInt8) :=
  match _h : (c.reader.read 1).1 with
  | .bytes [] => .done none c.heard
  | .bytes (b :: _) => .done (some b) c.heard
  | .fault f => if f.isTransient then c.heard.ask else .failed f c.heard
termination_by c.reader.weight
decreasing_by exact Reader.weight_read_fault _h

/-- Read one byte: flush once, then ask. -/
def getByte (c : Console) : Outcome IoFault Console (Option UInt8) :=
  c.flush.bind fun _ c => c.ask

/-- Write one byte. -/
def putByte (b : UInt8) (c : Console) : Outcome IoFault Console Unit := c.put [b]

/-- `ask`, with its first answer as it is. -/
theorem ask_unfold (c : Console) :
    c.ask = match (c.reader.read 1).1 with
      | .bytes [] => .done none c.heard
      | .bytes (b :: _) => .done (some b) c.heard
      | .fault f => if f.isTransient then c.heard.ask else .failed f c.heard := by
  rw [ask]
  split <;> rename_i h <;> rw [h]

theorem putFrom_eq (taken : Nat) (bytes : List UInt8) (c : Console) :
    c.putFrom taken bytes = c.put (bytes.drop taken) := by
  induction bytes generalizing taken with
  | nil => rw [List.drop_nil, put, putFrom, putFrom]
  | cons b bs ih =>
    cases taken with
    | zero => rfl
    | succ taken => exact ih taken

/-- To write is to make one write and to go on with what it did not take. -/
theorem put_cons (b : UInt8) (bs : List UInt8) (c : Console) :
    c.put (b :: bs) = match c.write (b :: bs) with
      | (0, d) => if d.writer.refusal.isTransient then .unfinished else .failed d.writer.refusal d
      | (k + 1, d) => d.put (bs.drop k) := by
  rw [put, putFrom]
  split
  · rfl
  · exact putFrom_eq ..

example : put [1, 2, 3] { writer := { room := some 2, interruptions := [1, 2] } } =
    .failed ⟨.brokenPipe, "closed"⟩
      { writer := { room := some 0 },
        calls := [.refused, .refused, .refused, .wrote [1, 2], .refused] } := rfl

/-- A byte is taken or refused, once the writer does not interrupt any more. -/
theorem putByte_eq (b : UInt8) (c : Console) :
    c.putByte b =
      if c.writer.takes 1 = 0 then
        if c.writer.refusal.isTransient then .unfinished
        else .failed c.writer.refusal ⟨c.reader, c.persist.writer, .refused :: c.persist.calls⟩
      else .done () ⟨c.reader, c.persist.writer.take 1, .wrote [b] :: c.persist.calls⟩ := by
  have hle : c.writer.takes 1 ≤ 1 := c.writer.takes_le 1
  rw [putByte, put_cons, write, List.length_singleton, takes_persist]
  cases htakes : c.writer.takes 1 with
  | zero => simp
  | succ k =>
    obtain rfl : k = 0 := by omega
    simp [put, putFrom]

/-- A writer without a limit takes every byte. -/
theorem putByte_of_room_eq_none {c : Console} (h : c.writer.room = none) (b : UInt8) :
    c.putByte b = .done () ⟨c.reader, c.persist.writer.take 1, .wrote [b] :: c.persist.calls⟩ := by
  rw [putByte_eq, Writer.takes_of_room_eq_none h]
  rfl

end Console

end Brainfuck
