import Brainfuck.Stream.Console

/-!
# What a console delivers

A reader hands out its store in pieces and with interruptions, and a writer
may be limited. This module says what is left of that from outside:

* **one byte** — `Console.ask` answers with the first of the reader's atoms and
  leaves the others, whatever pieces and interruptions there are (`exists_asked`);
* **serving** — a console serves an input and an output if its atoms are the
  bytes of the input, in full, and its writer never fails. Reading takes the
  first byte off the input (`Serves.getByte`) and writing adds to the output
  (`Serves.putByte`).
-/

namespace Brainfuck

/-! ## One byte -/

/-- The atom an answer stands for; an interruption stands for nothing. -/
def Reply.atoms : Reply → List Atom
  | .bytes [] => [.eof]
  | .bytes (b :: _) => [.byte b]
  | .fault f => if f.isTransient then [] else [.fault f]

namespace Reader

/-- A read takes the atoms of its answer off the store. Only at the end for
good is there an answer without anything taken. -/
theorem flatMap_atomsOf_readFrom (feeds : List Feed) :
    feeds.flatMap atomsOf =
        (readFrom 1 feeds).1.atoms ++ (readFrom 1 feeds).2.flatMap atomsOf ∨
      feeds.flatMap atomsOf = [] ∧ (readFrom 1 feeds).1 = .bytes [] ∧
        (readFrom 1 feeds).2.flatMap atomsOf = [] := by
  induction feeds with
  | nil => exact .inr ⟨rfl, rfl, rfl⟩
  | cons feed rest ih =>
    match feed with
    | .data [] => exact ih
    | .data (b :: bs) => exact .inl (by simp [readFrom, atomsOf, Reply.atoms])
    | .eof => exact .inl (by simp [readFrom, atomsOf, Reply.atoms])
    | .fail f => exact .inl (by simp [readFrom, atomsOf, Reply.atoms])

theorem atoms_read (r : Reader) :
    r.atoms = (r.read 1).1.atoms ++ (r.read 1).2.atoms ∨
      r.atoms = [] ∧ (r.read 1).1 = .bytes [] ∧ (r.read 1).2.atoms = [] :=
  flatMap_atomsOf_readFrom r.feeds

/-- A read of one byte brings no more than one. -/
theorem eq_nil_of_readFrom {feeds : List Feed} {b : UInt8} {bs : List UInt8}
    (h : (readFrom 1 feeds).1 = .bytes (b :: bs)) : bs = [] := by
  induction feeds with
  | nil => cases h
  | cons feed rest ih =>
    match feed with
    | .data [] => exact ih h
    | .data (_ :: _) =>
      cases h
      rfl
    | .eof => cases h
    | .fail _ => cases h

end Reader

/-- The call is a read that was interrupted, so it is made again. -/
def Call.isInterruption : Call → Bool
  | .read (.fault f) => f.isTransient
  | _ => false

namespace Calls

/-- The calls, with the reads that were interrupted left out. -/
def withoutInterruptions (calls : Calls) : Calls :=
  calls.filter fun call => !call.isInterruption

theorem withoutInterruptions_cons {call : Call} (h : call.isInterruption = false)
    (earlier : Calls) :
    withoutInterruptions (call :: earlier) = call :: withoutInterruptions earlier := by
  simp [withoutInterruptions, h]

theorem output_withoutInterruptions (calls : Calls) :
    output (withoutInterruptions calls) = output calls :=
  output_filter (fun _ => rfl) calls

end Calls

/-- The answer that ends the asking, given what the reader still delivers. -/
def Reply.ofAtoms : List Atom → Reply
  | .byte b :: _ => .bytes [b]
  | .fault f :: _ => .fault f
  | _ => .bytes []

/-- What asking comes to if this answer ends it and leaves the console `c`. -/
def Reply.outcome (reply : Reply) (c : Console) : Outcome IoFault Console (Option UInt8) :=
  match reply with
  | .bytes [] => .done none c
  | .bytes (b :: _) => .done (some b) c
  | .fault f => .failed f c

/-- An answer that counts is the one for the first atom, and takes it. -/
theorem Reader.ofAtoms_of_read {r : Reader} {reply : Reply} (h : (r.read 1).1 = reply)
    (final : (Call.read reply).isInterruption = false) :
    Reply.ofAtoms r.atoms = reply ∧ (r.read 1).2.atoms = r.atoms.tail := by
  rcases r.atoms_read with hatoms | ⟨hnone, hend, hrest⟩
  · rw [h] at hatoms
    cases reply with
    | bytes bs =>
      cases bs with
      | nil =>
        rw [hatoms]
        exact ⟨rfl, rfl⟩
      | cons b bs =>
        obtain rfl : bs = [] := eq_nil_of_readFrom h
        rw [hatoms]
        exact ⟨rfl, rfl⟩
    | fault f =>
      have hlasting : f.isTransient = false := final
      simp only [Reply.atoms, hlasting] at hatoms
      rw [hatoms]
      exact ⟨rfl, rfl⟩
  · rw [hnone, hrest, ← h, hend]
    exact ⟨rfl, rfl⟩

/-- An interruption takes no atom. -/
theorem Reader.atoms_of_read_interruption {r : Reader} {f : IoFault}
    (h : (r.read 1).1 = .fault f) (htransient : f.isTransient = true) :
    (r.read 1).2.atoms = r.atoms := by
  rcases r.atoms_read with hatoms | ⟨-, hend, -⟩
  · rw [h] at hatoms
    simp only [Reply.atoms, htransient, if_true, List.nil_append] at hatoms
    exact hatoms.symm
  · rw [h] at hend
    cases hend

namespace Console

/-- Between `c` and `d` the reader was asked for a byte: it was interrupted any
number of times, and then gave an answer that counts. -/
structure Asked (c d : Console) (reply : Reply) : Prop where
  calls : ∃ retries : Calls, d.calls = .read reply :: (retries ++ c.calls) ∧
    ∀ call ∈ retries, call.isInterruption = true
  final : (Call.read reply).isInterruption = false
  writer : d.writer = c.writer
  atoms : d.reader.atoms = c.reader.atoms.tail

namespace Asked

variable {c d : Console} {reply : Reply}

/-- The first answer may be the one that counts. -/
theorem heard (h : (c.reader.read 1).1 = reply)
    (final : (Call.read reply).isInterruption = false) : Asked c c.heard reply := by
  refine ⟨⟨[], ?_, ?_⟩, final, rfl, (Reader.ofAtoms_of_read h final).2⟩
  · rw [← h]
    rfl
  · intro call hcall
    cases hcall

/-- Else it was an interruption, and the reader was asked again. -/
theorem interrupted (asked : Asked c.heard d reply) {f : IoFault}
    (h : (c.reader.read 1).1 = .fault f) (htransient : f.isTransient = true) :
    Asked c d reply := by
  obtain ⟨retries, hcalls, hretries⟩ := asked.calls
  refine ⟨⟨retries ++ [.read (.fault f)], ?_, ?_⟩, asked.final, asked.writer, ?_⟩
  · rw [hcalls, Console.heard, h, List.append_assoc]
    rfl
  · intro call hcall
    rcases List.mem_append.mp hcall with hold | hnew
    · exact hretries call hold
    · rw [List.mem_singleton.mp hnew]
      exact htransient
  · rw [asked.atoms]
    exact congrArg List.tail (Reader.atoms_of_read_interruption h htransient)

/-- Up to interruptions, asking is one call. -/
theorem withoutInterruptions (asked : Asked c d reply) :
    d.calls.withoutInterruptions = .read reply :: c.calls.withoutInterruptions := by
  obtain ⟨retries, hcalls, hretries⟩ := asked.calls
  have hnone : retries.filter (fun call => !call.isInterruption) = [] := by
    rw [List.filter_eq_nil_iff]
    intro call hcall
    simp [hretries call hcall]
  rw [hcalls, Calls.withoutInterruptions_cons asked.final, Calls.withoutInterruptions,
    List.filter_append, hnone]
  rfl

/-- Reading brings out no bytes. -/
theorem output (asked : Asked c d reply) : d.output = c.output := by
  rw [Console.output, Console.output, ← Calls.output_withoutInterruptions,
    asked.withoutInterruptions, Calls.output_read, Calls.output_withoutInterruptions]

end Asked

/-- Asking answers with the first atom and leaves the others. -/
theorem exists_asked (c : Console) :
    ∃ d, Asked c d (.ofAtoms c.reader.atoms) ∧
      c.ask = (Reply.ofAtoms c.reader.atoms).outcome d := by
  -- by the recursion of `ask`: an interruption leaves the atoms as they are
  fun_induction ask c with
  | case1 c h =>
    rw [(Reader.ofAtoms_of_read h rfl).1]
    exact ⟨c.heard, .heard h rfl, rfl⟩
  | case2 c b bs h =>
    rw [(Reader.ofAtoms_of_read h rfl).1]
    exact ⟨c.heard, .heard h rfl, rfl⟩
  | case3 c f h htransient ih =>
    obtain ⟨d, asked, hask⟩ := ih
    have hatoms : c.heard.reader.atoms = c.reader.atoms :=
      Reader.atoms_of_read_interruption h htransient
    rw [hatoms] at asked hask
    exact ⟨d, asked.interrupted h htransient, hask⟩
  | case4 c f h hlasting =>
    have final : (Call.read (.fault f)).isInterruption = false := by
      simpa [Call.isInterruption] using hlasting
    rw [(Reader.ofAtoms_of_read h final).1]
    exact ⟨c.heard, .heard h final, rfl⟩

/-! ## Serving -/

/-- The console has `unread` to deliver and nothing behind it, `written` came
out of it, and its writer never fails. -/
structure Serves (c : Console) (unread written : List UInt8) : Prop where
  unread : c.reader.atoms = unread.map .byte
  written : c.output = written
  reliable : c.writer.Reliable

namespace Serves

variable {c : Console} {unread written : List UInt8}

theorem ofBytes (input : List UInt8) : Serves { reader := .ofBytes input } input [] :=
  ⟨by simp [Reader.atoms, Reader.ofBytes, Reader.atomsOf], rfl, rfl, rfl⟩

theorem flush (h : c.Serves unread written) :
    ∃ c', c.flush = .done () c' ∧ c'.Serves unread written := by
  obtain ⟨hroom, hflushes⟩ := h.reliable
  refine ⟨{ c with writer := c.writer.flush, calls := .flush true :: c.calls }, ?_, h.unread,
    h.written, hroom, ?_⟩
  · simp [Console.flush, Writer.canFlush, hflushes]
  · simp [Writer.flush, hflushes]

theorem putByte (h : c.Serves unread written) (b : UInt8) :
    ∃ c', c.putByte b = .done () c' ∧ c'.Serves unread (written ++ [b]) := by
  obtain ⟨hroom, hflushes⟩ := h.reliable
  refine ⟨_, putByte_of_room_eq_none hroom b, h.unread, ?_, ?_, hflushes⟩
  · show Calls.output (.wrote [b] :: c.persist.calls) = _
    rw [Calls.output_wrote, ← h.written, ← c.output_persist]
    rfl
  · simp [Writer.take, hroom]

/-- Reading takes the first byte; there is none at the end of the input. -/
theorem getByte (h : c.Serves unread written) :
    ∃ c', c.getByte = .done unread.head? c' ∧ c'.Serves unread.tail written := by
  obtain ⟨c₁, hflush, hserves⟩ := h.flush
  obtain ⟨c₂, asked, hask⟩ := c₁.exists_asked
  have hatoms := asked.atoms
  rw [hserves.unread] at hatoms hask
  refine ⟨c₂, ?_, ?_, asked.output.trans hserves.written, ?_⟩
  · rw [Console.getByte, hflush]
    show c₁.ask = _
    cases unread with
    | nil => exact hask
    | cons b rest => exact hask
  · rw [hatoms, List.map_tail]
  · rw [asked.writer]
    exact hserves.reliable

end Serves

end Console

end Brainfuck
