import Brainfuck.Compile
import Brainfuck.Proofs.Block
import Mathlib.Data.List.TakeWhile

/-!
# What the compiler has read

Between two tokens the compiler has read a program whose last loops are still
open: a `Draft`. Everything in a `Pass` can be told from the draft, so the
state of the compiler is `Draft.pass` of what it has read:

* **position** — the length of the text;
* **operations** — those of the finished blocks, with an unpatched jump
  between each of them and the next;
* **openings** — where these jumps and their brackets are.

`Pass.advance` then is an operation on drafts, one equation for each kind of
token (`advance_act`, `advance_enter`, `advance_leave`, ...), and so is one
round of the loop (`drive_act`, `drive_enter`, `drive_leave`). `Reads` is the
whole pass over a text as a relation on drafts, and `reads_drive` says that
the compiler follows it. What holds of every accepted program is proved by
induction over `Reads`; the first such fact is `exists_block_of_compile`.
-/

namespace Brainfuck

/-! ## The tail of an operation array -/

namespace Op

/-- Idioms are short. -/
theorem fuse?_eq_none_of_length {ops : List Op} (long : idiomLength < ops.length) :
    fuse? ops = none := by
  cases hf : fuse? ops with
  | none => rfl
  | some op => cases idiom_of_fuse? hf <;> simp [idiomLength] at long

/-- One operation more than an idiom can have is as good as the whole body. -/
theorem fuse?_take (ops : List Op) : fuse? (ops.take (idiomLength + 1)) = fuse? ops := by
  by_cases short : ops.length ≤ idiomLength + 1
  · rw [List.take_of_length_le short]
  · rw [@fuse?_eq_none_of_length ops (by omega)]
    apply fuse?_eq_none_of_length
    rw [List.length_take]
    omega

end Op

namespace Code

variable (front inner : List Op) (op : Op)

theorem bodyAt_append :
    bodyAt (front ++ op :: inner).toArray front.length = inner.take (Op.idiomLength + 1) := by
  have behind : (front ++ op :: inner).drop (front.length + 1) = inner := by
    simp [List.drop_append]
  unfold bodyAt
  rw [Array.toList_extract, List.extract_eq_take_drop, behind]
  congr 1
  omega

theorem fuseAt_append (fused : Op) :
    fuseAt (front ++ op :: inner).toArray front.length fused = (front ++ [fused]).toArray := by
  simp [fuseAt]

theorem linkAt_append :
    linkAt (front ++ op :: inner).toArray front.length =
      (front ++ Op.jumpZero (front.length + 1 + inner.length) :: inner ++
        [Op.jumpNonzero front.length]).toArray := by
  have hsize : front.length + (inner.length + 1) = front.length + 1 + inner.length := by omega
  simp [linkAt, hsize]

end Code

/-! ## Drafts -/

/-- A program that is read up to some point. -/
structure Draft where
  /-- What stands in front of each open loop, innermost first. -/
  outer : List Block := []
  /-- What was read since the last bracket that is still open. -/
  current : Block := .empty

namespace Draft

/-- The text up to the innermost open bracket, that bracket included. -/
def textBefore : List Block → List UInt8
  | [] => []
  | b :: outer => textBefore outer ++ b.source ++ [Instr.opening.byte]

/-- The operations up to the jump of the innermost open loop, that jump
included. -/
def opsBefore : List Block → List Op
  | [] => []
  | b :: outer => opsBefore outer ++ b.lower (opsBefore outer).length ++ [.jumpZero 0]

/-- The index of the jump of the innermost open loop. -/
def slot (b : Block) (outer : List Block) : Nat := (opsBefore outer).length + b.size

theorem slot_eq (b : Block) (outer : List Block) :
    slot b outer = (opsBefore outer ++ b.lower (opsBefore outer).length).length := by
  simp [slot]

/-- The position of the bracket of the innermost open loop. -/
def pos (b : Block) (outer : List Block) : Nat := (textBefore outer).length + b.source.length

/-- The open loops, innermost first. -/
def openings : List Block → List Opening
  | [] => []
  | b :: outer => ⟨slot b outer, pos b outer⟩ :: openings outer

/-- The text that was read. -/
def source (d : Draft) : List UInt8 := textBefore d.outer ++ d.current.source

/-- The operations for what was read. -/
def ops (d : Draft) : List Op :=
  opsBefore d.outer ++ d.current.lower (opsBefore d.outer).length

/-- The state of a compiler that has read a draft. -/
def pass (d : Draft) : Pass := ⟨d.source.length, d.ops.toArray, openings d.outer⟩

/-- The draft with a run at its end. -/
def act (d : Draft) (a : Action) (n : Nat) : Draft := { d with current := d.current.act a n }

/-- The draft with one more open loop. -/
def enter (d : Draft) : Draft := ⟨d.current :: d.outer, .empty⟩

theorem source_act (d : Draft) (a : Action) (n : Nat) :
    (d.act a n).source = d.source ++ List.replicate n a.byte := by
  simp [source, act, Block.source]

theorem source_enter (d : Draft) : d.enter.source = d.source ++ [Instr.opening.byte] := by
  simp [source, enter, textBefore]

theorem source_leave (b : Block) (outer : List Block) (body : Block) :
    source ⟨outer, b.loop body⟩ = source ⟨b :: outer, body⟩ ++ [Instr.closing.byte] := by
  simp [source, textBefore, Block.source, Op.bracket]

theorem ops_act (d : Draft) (a : Action) (n : Nat) : (d.act a n).ops = d.ops ++ [.run a n] := by
  simp [ops, act, Block.lower]

theorem ops_enter (d : Draft) : d.enter.ops = d.ops ++ [.jumpZero 0] := by
  simp [ops, enter, opsBefore, Block.lower]

theorem ops_open (b : Block) (outer : List Block) (body : Block) :
    ops ⟨b :: outer, body⟩ = (opsBefore outer ++ b.lower (opsBefore outer).length) ++
      .jumpZero 0 :: body.lower (slot b outer + 1) := by
  simp [ops, opsBefore, slot, Nat.add_assoc]

theorem ops_closed (b : Block) (outer : List Block) (body : Block) :
    ops ⟨outer, b.loop body⟩ = (opsBefore outer ++ b.lower (opsBefore outer).length) ++
      Op.enclose (slot b outer) (body.lower (slot b outer + 1)) := by
  simp [ops, Block.lower_loop, slot]

/-! ## One token -/

/-- The loop that a `]` closes, as the log tells it. -/
def news (pos : Nat) (slot : Nat) (body : Block) : Option Event :=
  (Op.fuse? (body.lower 0)).map (Event.fused pos slot)

theorem advance_act (d : Draft) (a : Action) (n : Nat) :
    d.pass.advance a.byte n = .ok ((d.act a n).pass, none) := by
  have hbyte : Instr.ofByte? a.byte = some (.act a) := Instr.ofByte?_byte (.act a)
  simp only [pass, Pass.advance, hbyte, source_act, ops_act]
  simp [act]

theorem advance_enter (d : Draft) :
    d.pass.advance Instr.opening.byte 1 = .ok (d.enter.pass, none) := by
  simp only [pass, Pass.advance, Instr.ofByte?_byte, source_enter, ops_enter]
  simp [enter, openings, slot, pos, ops, source, Nat.add_assoc]

/-- A `]` that closes a loop puts the loop behind what stood in front of it. -/
theorem advance_leave (b : Block) (outer : List Block) (body : Block) :
    (pass ⟨b :: outer, body⟩).advance Instr.closing.byte 1 =
      .ok (pass ⟨outer, b.loop body⟩,
        news (source ⟨b :: outer, body⟩).length (slot b outer) body) := by
  have hslot := slot_eq b outer
  have hbody : Op.fuse? (Code.bodyAt (ops ⟨b :: outer, body⟩).toArray (slot b outer)) =
      Op.fuse? (body.lower 0) := by
    rw [ops_open, hslot, Code.bodyAt_append, Op.fuse?_take, Block.fuse?_lower]
  have hpos : (source ⟨outer, b.loop body⟩).length =
      (source ⟨b :: outer, body⟩).length + 1 := by
    rw [source_leave, List.length_append]
    rfl
  simp only [pass, Pass.advance, Instr.ofByte?_byte, openings, hbody, hpos, news]
  cases hf : Op.fuse? (body.lower 0) with
  | none =>
    have hlink : Code.linkAt (ops ⟨b :: outer, body⟩).toArray (slot b outer) =
        (ops ⟨outer, b.loop body⟩).toArray := by
      rw [ops_closed, Op.enclose_of_none ((Block.fuse?_lower _ body).trans hf), ops_open, hslot,
        Code.linkAt_append]
      simp
    simp [hlink]
  | some op =>
    have hfuse : Code.fuseAt (ops ⟨b :: outer, body⟩).toArray (slot b outer) op =
        (ops ⟨outer, b.loop body⟩).toArray := by
      rw [ops_closed, Op.enclose_of_some ((Block.fuse?_lower _ body).trans hf), ops_open, hslot,
        Code.fuseAt_append]
    simp [hfuse]

theorem advance_unopened (b : Block) (n : Nat) :
    (pass ⟨[], b⟩).advance Instr.closing.byte n = .error (.unopened b.source.length) := by
  simp [pass, Pass.advance, openings, source, textBefore]

theorem advance_foreign (d : Draft) {byte : UInt8} (h : Instr.ofByte? byte = none) (n : Nat) :
    d.pass.advance byte n = .error (.foreign byte d.source.length) := by
  simp [pass, Pass.advance, h]

/-! ## The whole text -/

/-- `Reads d log text c`: a compiler that has read `d` and has logged `log`,
latest event first, and now reads `text`, ends with `c`. -/
inductive Reads : Draft → List Event → List UInt8 → Compilation → Prop
  | finished {b : Block} {log : List Event} :
      Reads ⟨[], b⟩ log []
        ⟨(.compiled b.source.length b.size :: log).reverse, .ok (b.lower 0).toArray⟩
  | unclosed {b : Block} {outer : List Block} {body : Block} {log : List Event} :
      Reads ⟨b :: outer, body⟩ log [] ⟨log.reverse, .error (.unclosed (pos b outer))⟩
  | foreign {d : Draft} {log : List Event} {byte : UInt8} {rest : List UInt8} :
      Instr.ofByte? byte = none →
      Reads d log (byte :: rest) ⟨log.reverse, .error (.foreign byte d.source.length)⟩
  | unopened {b : Block} {log : List Event} {rest : List UInt8} :
      Reads ⟨[], b⟩ log (Instr.closing.byte :: rest)
        ⟨log.reverse, .error (.unopened b.source.length)⟩
  | act {d : Draft} {log : List Event} {a : Action} {n : Nat} {rest : List UInt8}
      {c : Compilation} : 0 < n → rest.head? ≠ some a.byte → Reads (d.act a n) log rest c →
      Reads d log (List.replicate n a.byte ++ rest) c
  | enter {d : Draft} {log : List Event} {rest : List UInt8} {c : Compilation} :
      Reads d.enter log rest c → Reads d log (Instr.opening.byte :: rest) c
  | leave {b : Block} {outer : List Block} {body : Block} {log : List Event}
      {rest : List UInt8} {c : Compilation} :
      Reads ⟨outer, b.loop body⟩
        ((news (source ⟨b :: outer, body⟩).length (slot b outer) body).toList ++ log) rest c →
      Reads ⟨b :: outer, body⟩ log (Instr.closing.byte :: rest) c

end Draft

/-! ## Tokens of a text -/

/-- A text starts with a run of any byte; the run may be empty. -/
theorem exists_replicate_append_dropWhile (b : UInt8) (text : List UInt8) :
    ∃ n, text = List.replicate n b ++ text.dropWhile (· == b) := by
  have hrun : text.takeWhile (· == b) = List.replicate (text.takeWhile (· == b)).length b := by
    apply List.eq_replicate_of_mem
    intro x hx
    simpa using List.mem_takeWhile_imp hx
  refine ⟨(text.takeWhile (· == b)).length, ?_⟩
  rw [← hrun, List.takeWhile_append_dropWhile]

/-- The token at the front of a text is a run, and what is behind it does not
go on with the same byte. -/
theorem split_token (a : Action) (rest : List UInt8) :
    ∃ n tail, a.byte :: rest = List.replicate n a.byte ++ tail ∧
      tail.head? ≠ some a.byte ∧ 0 < n := by
  obtain ⟨n, hrest⟩ := exists_replicate_append_dropWhile a.byte rest
  refine ⟨n + 1, rest.dropWhile (· == a.byte), ?_, ?_, Nat.succ_pos n⟩
  · rw [List.replicate_succ, List.cons_append, ← hrest]
  · have hhead := List.head?_dropWhile_not (· == a.byte) rest
    intro h
    rw [h] at hhead
    simp at hhead

theorem tokenLength_replicate {a : Action} {rest : List UInt8}
    (h : rest.head? ≠ some a.byte) (n : Nat) :
    tokenLength a.byte (List.replicate n a.byte ++ rest) = n + 1 := by
  have hrest : rest.takeWhile (· == a.byte) = [] := by
    cases rest with
    | nil => rfl
    | cons b rest =>
      have hb : b ≠ a.byte := by simpa using h
      simp [hb]
  have hrun : (List.replicate n a.byte ++ rest).takeWhile (· == a.byte) =
      List.replicate n a.byte := by
    rw [List.takeWhile_append_of_pos (by simp), hrest, List.append_nil]
  simp [tokenLength, a.byte_ne_opening, a.byte_ne_closing, hrun, Nat.add_comm]

theorem tokenLength_opening (rest : List UInt8) :
    tokenLength Instr.opening.byte rest = 1 := by
  simp [tokenLength]

theorem tokenLength_closing (rest : List UInt8) :
    tokenLength Instr.closing.byte rest = 1 := by
  simp [tokenLength]

namespace Draft

/-! ## The loop of the compiler, token by token -/

theorem drive_act (d : Draft) (log : List Event) {a : Action} {n : Nat} {rest : List UInt8}
    (positive : 0 < n) (h : rest.head? ≠ some a.byte) :
    d.pass.drive log (List.replicate n a.byte ++ rest) = (d.act a n).pass.drive log rest := by
  obtain ⟨k, rfl⟩ := Nat.exists_eq_succ_of_ne_zero (Nat.ne_of_gt positive)
  rw [List.replicate_succ, List.cons_append, Pass.drive]
  simp only [tokenLength_replicate h, advance_act]
  simp

theorem drive_enter (d : Draft) (log : List Event) (rest : List UInt8) :
    d.pass.drive log (Instr.opening.byte :: rest) = d.enter.pass.drive log rest := by
  rw [Pass.drive]
  simp only [tokenLength_opening, advance_enter]
  rfl

theorem drive_leave (b : Block) (outer : List Block) (body : Block) (log : List Event)
    (rest : List UInt8) :
    (pass ⟨b :: outer, body⟩).drive log (Instr.closing.byte :: rest) =
      (pass ⟨outer, b.loop body⟩).drive
        ((news (source ⟨b :: outer, body⟩).length (slot b outer) body).toList ++ log) rest := by
  rw [Pass.drive]
  simp only [tokenLength_closing, advance_leave]
  rfl

/-- The compiler reads as `Reads` says. -/
theorem reads_drive (d : Draft) (log : List Event) (text : List UInt8) :
    Reads d log text (d.pass.drive log text) := by
  -- by the length of the text: a token may take any number of bytes
  induction hlen : text.length using Nat.strongRecOn generalizing d log text with
  | ind len ih =>
    cases text with
    | nil =>
      obtain ⟨outer, current⟩ := d
      rw [Pass.drive]
      cases outer with
      | nil =>
        have hstart : Reads ⟨[], current⟩ log [] _ := .finished
        simpa [pass, Pass.finish, openings, source, ops, textBefore, opsBefore] using hstart
      | cons b outer => exact .unclosed
    | cons byte rest =>
      have hrest : rest.length < len := by
        rw [← hlen]
        exact Nat.lt_succ_self _
      cases hbyte : Instr.ofByte? byte with
      | none =>
        rw [Pass.drive]
        simp only [advance_foreign d hbyte]
        exact .foreign hbyte
      | some i =>
        cases Instr.byte_of_ofByte? hbyte
        cases i with
        | act a =>
          obtain ⟨n, tail, htext, hhead, hpos⟩ := split_token a rest
          have htail : tail.length < len := by
            rw [← hlen, Instr.byte_act, htext, List.length_append, List.length_replicate]
            omega
          rw [Instr.byte_act, htext, drive_act d log hpos hhead]
          exact .act hpos hhead (ih tail.length htail (d.act a n) log tail rfl)
        | opening =>
          rw [drive_enter]
          exact .enter (ih rest.length hrest d.enter log rest rfl)
        | closing =>
          obtain ⟨outer, current⟩ := d
          cases outer with
          | nil =>
            rw [Pass.drive]
            simp only [advance_unopened]
            exact .unopened
          | cons b outer =>
            rw [drive_leave]
            exact .leave (ih rest.length hrest _ _ rest rfl)

/-! ## Accepted programs -/

/-- The blocks of a draft are tight, and the text to come does not go on with
the run at its end. -/
structure Tight (d : Draft) (text : List UInt8) : Prop where
  outer : ∀ b ∈ d.outer, b.Tight
  current : d.current.Tight
  ready : ∀ a, d.current.last? = some a → text.head? ≠ some a.byte

/-- Nothing was read yet, so there is nothing that could be loose. -/
theorem tight_empty (text : List UInt8) : Tight {} text := by
  refine ⟨?_, .empty, ?_⟩
  · intro b hb
    cases hb
  · intro a h
    cases h

theorem Tight.act {d : Draft} {a : Action} {n : Nat} {rest : List UInt8}
    (tight : d.Tight (List.replicate n a.byte ++ rest)) (positive : 0 < n)
    (distinct : rest.head? ≠ some a.byte) : (d.act a n).Tight rest := by
  refine ⟨tight.outer, .act tight.current ?_ positive, ?_⟩
  · -- the run at the end of the draft would have taken these bytes too
    intro hlast
    apply tight.ready a hlast
    rw [List.head?_append, List.head?_replicate, if_neg (by omega)]
    rfl
  · intro a' hlast
    cases hlast
    exact distinct

theorem Tight.enter {d : Draft} {text : List UInt8} (tight : d.Tight text) (rest : List UInt8) :
    d.enter.Tight rest := by
  refine ⟨?_, .empty, by intro a h; cases h⟩
  intro b hb
  rcases List.mem_cons.mp hb with rfl | hb
  · exact tight.current
  · exact tight.outer b hb

theorem Tight.leave {b : Block} {outer : List Block} {body : Block} {text : List UInt8}
    (tight : Tight ⟨b :: outer, body⟩ text) (rest : List UInt8) :
    Tight ⟨outer, b.loop body⟩ rest := by
  refine ⟨?_, .loop (tight.outer b List.mem_cons_self) tight.current, ?_⟩
  · intro b' hb'
    exact tight.outer b' (List.mem_cons_of_mem _ hb')
  · intro a h
    cases h

/-- The operation array of an accepted program is that of a tight block, and
the block is the whole program. -/
theorem Reads.exists_block {d : Draft} {log : List Event} {text : List UInt8}
    {c : Compilation} {code : Code} (reads : Reads d log text c) (tight : d.Tight text)
    (accepted : c.result = .ok code) :
    ∃ b : Block, b.Tight ∧ b.source = d.source ++ text ∧ code = b.code := by
  induction reads with
  | @finished b log =>
    cases accepted
    exact ⟨b, tight.current, by simp [source, textBefore], rfl⟩
  | unclosed => cases accepted
  | foreign _ => cases accepted
  | unopened => cases accepted
  | @act d log a n rest c positive distinct _ ih =>
    rw [← List.append_assoc, ← source_act]
    exact ih (tight.act positive distinct) accepted
  | @enter d log rest c _ ih =>
    rw [List.append_cons, ← source_enter]
    exact ih (tight.enter rest) accepted
  | @leave b outer body log rest c _ ih =>
    rw [List.append_cons, ← source_leave]
    exact ih (tight.leave rest) accepted

end Draft

/-- Compiling is reading from an empty draft. -/
theorem reads_compile (p : List UInt8) : Draft.Reads {} [] p (compile p) :=
  Draft.reads_drive {} [] p

/-- An accepted program is the text of a tight block, and its array has the
operations of that block. -/
theorem exists_block_of_compile {p : List UInt8} {code : Code}
    (accepted : (compile p).result = .ok code) :
    ∃ b : Block, b.Tight ∧ b.source = p ∧ code = b.code :=
  (reads_compile p).exists_block (Draft.tight_empty p) accepted

end Brainfuck
