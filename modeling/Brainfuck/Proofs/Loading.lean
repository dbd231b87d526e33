import Brainfuck.Program

/-!
# Loading a program

A source text comes from a reader a chunk at a time, in pieces that have nothing to
do with the chunks, and with interruptions in between. What is loaded depends on none
of that:

* **delivery** — a reader delivers the data in front of its first end of input, or the
  first failure there that is no interruption (`Reader.delivery`). This looks at the
  stored answers alone, not at how they are read;
* **one read** — a read of any positive size takes its answer off the delivery and
  leaves the rest of it (`Reader.delivery_of_read`);
* **all reads** — so loading collects the instructions of the whole delivery
  (`Program.absorb_eq`).

The main result is `load_eq_ofSource_delivered`.
-/

namespace Brainfuck

/-! ## Delivery -/

namespace Feed

/-- The data in a stored answer. -/
def bytes : Feed → List UInt8
  | .data bs => bs
  | .eof | .fail _ => []

/-- The failure in a stored answer, unless the read is tried again. -/
def fault? : Feed → Option IoFault
  | .fail f => if f.isTransient then none else some f
  | .data _ | .eof => none

end Feed

namespace Reader

/-- The stored answers in front of the first end of input. -/
def beforeEof (r : Reader) : List Feed := r.feeds.takeWhile (· ≠ .eof)

/-- All data in front of the first end of input. -/
def delivered (r : Reader) : List UInt8 := r.beforeEof.flatMap Feed.bytes

/-- The first failure in front of the first end of input, interruptions aside. -/
def firstFault? (r : Reader) : Option IoFault := r.beforeEof.findSome? Feed.fault?

/-- What comes of reading up to the first end of input. -/
def delivery (r : Reader) : Except IoFault (List UInt8) :=
  match r.firstFault? with
  | some f => .error f
  | none => .ok r.delivered

@[simp] theorem beforeEof_data (bs : List UInt8) (rest : List Feed) :
    beforeEof ⟨.data bs :: rest⟩ = .data bs :: beforeEof ⟨rest⟩ := by
  simp [beforeEof]

@[simp] theorem beforeEof_fail (f : IoFault) (rest : List Feed) :
    beforeEof ⟨.fail f :: rest⟩ = .fail f :: beforeEof ⟨rest⟩ := by
  simp [beforeEof]

theorem delivery_data (bs : List UInt8) (rest : List Feed) :
    delivery ⟨.data bs :: rest⟩ = (delivery ⟨rest⟩).map (bs ++ ·) := by
  have hfault : firstFault? ⟨.data bs :: rest⟩ = firstFault? ⟨rest⟩ := by
    simp [firstFault?, List.findSome?_cons, Feed.fault?]
  have hbytes : delivered ⟨.data bs :: rest⟩ = bs ++ delivered ⟨rest⟩ := by
    simp [delivered, Feed.bytes]
  rw [delivery, hfault, hbytes, delivery]
  cases firstFault? ⟨rest⟩ <;> rfl

theorem delivery_fail (f : IoFault) (rest : List Feed) :
    delivery ⟨.fail f :: rest⟩ = if f.isTransient then delivery ⟨rest⟩ else .error f := by
  by_cases htransient : f.isTransient = true
  · have hfault : firstFault? ⟨.fail f :: rest⟩ = firstFault? ⟨rest⟩ := by
      simp [firstFault?, Feed.fault?, htransient]
    have hbytes : delivered ⟨.fail f :: rest⟩ = delivered ⟨rest⟩ := by
      simp [delivered, Feed.bytes]
    rw [if_pos htransient, delivery, hfault, hbytes, delivery]
  · have hfault : firstFault? ⟨.fail f :: rest⟩ = some f := by
      simp [firstFault?, Feed.fault?, htransient]
    rw [if_neg htransient, delivery, hfault]

end Reader

/-! ## One read -/

/-- The delivery of a reader that gives this answer and delivers `later` afterwards. -/
def Reply.followedBy (later : Except IoFault (List UInt8)) : Reply → Except IoFault (List UInt8)
  | .bytes [] => .ok []
  | .bytes bs => later.map (bs ++ ·)
  | .fault f => if f.isTransient then later else .error f

/-- A read takes its answer off the delivery, however long the chunk may be. -/
theorem Reader.delivery_of_read (r : Reader) {cap : Nat} (hcap : 0 < cap) :
    r.delivery = (r.read cap).1.followedBy (r.read cap).2.delivery := by
  obtain ⟨feeds⟩ := r
  induction feeds with
  | nil => rfl
  | cons feed rest ih =>
    match feed with
    | .data [] =>
      -- a piece without bytes is passed over, and adds nothing to the delivery
      have hnone : delivery ⟨.data [] :: rest⟩ = delivery ⟨rest⟩ := by
        rw [delivery_data]
        cases delivery ⟨rest⟩ <;> rfl
      rw [hnone]
      exact ih
    | .data (b :: bs) =>
      obtain ⟨cap, rfl⟩ : ∃ k, cap = k + 1 := ⟨cap - 1, by omega⟩
      show delivery ⟨.data (b :: bs) :: rest⟩ =
        (delivery ⟨.data (bs.drop cap) :: rest⟩).map (b :: bs.take cap ++ ·)
      rw [delivery_data, delivery_data]
      cases delivery ⟨rest⟩ with
      | error f => rfl
      | ok text => simp [Except.map, ← List.append_assoc]
    | .eof => rfl
    | .fail f => exact delivery_fail f rest

namespace Program

/-- Reading on adds the instructions of the delivery to the program. -/
theorem absorb_eq (p : Program) (r : Reader) :
    p.absorb r = r.delivery.map fun text => ⟨p.bytes ++ text.filter isSignificant⟩ := by
  have hchunk : 0 < chunkSize := by decide
  fun_induction absorb p r with
  | case1 p r h =>
    rw [r.delivery_of_read hchunk, h]
    simp [Reply.followedBy, Except.map]
  | case2 p r b bs h ih =>
    rw [ih, r.delivery_of_read hchunk, h]
    cases (r.read chunkSize).2.delivery with
    | error f => rfl
    | ok text =>
      have hbytes : p.bytes ++ (b :: bs).filter isSignificant ++ text.filter isSignificant =
          p.bytes ++ (b :: bs ++ text).filter isSignificant := by
        apply Array.ext'
        simp only [Array.toList_appendList, List.filter_append, List.append_assoc]
      exact congrArg (fun bytes => Except.ok (Program.mk bytes)) hbytes
  | case3 p r f h htransient ih =>
    rw [ih, r.delivery_of_read hchunk, h, Reply.followedBy, if_pos htransient]
  | case4 p r f h hlasting =>
    rw [r.delivery_of_read hchunk, h, Reply.followedBy, if_neg hlasting]
    rfl

end Program

/-- **Loading does not depend on how the text is delivered.** If a failure that is no
interruption comes before the first end of input, loading fails with the first such
failure. Else it gives the program in all data before the first end of input, in
whatever pieces that is stored and whatever interruptions there are. -/
theorem load_eq_ofSource_delivered (r : Reader) :
    Program.load r = match r.firstFault? with
      | some f => .error f
      | none => .ok (.ofSource r.delivered) := by
  rw [Program.load, Program.absorb_eq, Reader.delivery]
  cases r.firstFault? with
  | some f => rfl
  | none => simp [Except.map, Program.ofSource, Program.ofBytes]

example :
    Program.load ⟨[.data [43, 32], .fail ⟨.interrupted, ""⟩, .data [], .data [120, 45], .eof,
        .fail ⟨.timedOut, "late"⟩]⟩ =
      .ok (.ofBytes [43, 45]) := by cbv

end Brainfuck
