import Brainfuck.Proofs.Composition
import Brainfuck.Proofs.Form
import Brainfuck.Proofs.Verdict

/-!
# What every round of the compiler keeps

The loop of the compiler works on two coordinates that drift apart, positions in
the program and indices into the array, and the array shrinks on the way. This
module says what holds after each round:

* **rounds** — `Pass.Reached` are the states of the loop, and
  `Pass.Reached.exists_drive` says that it is the compiler's loop;
* **the stack** — its positions are the brackets without partner in what was read,
  and its indices are those of jumps without target, both from the outermost loop
  inwards (`Draft.mem_openings_iff`, `Draft.openings_ordered`,
  `Draft.placeholder_of_mem`);
* **other jumps** — belong to finished loops that no open loop is inside of. Kept
  by what a token does to the array (`Op.Settled.append`, `Op.Settled.enter`);
* **runs** — are never cut in two (`Draft.Tight.uncut`).

All of this is said of drafts first. A round leads from a draft to a draft
(`Draft.exists_of_advance`), so every reached state is that of one
(`Pass.Reached.exists_draft`). The main result is `rounds_keep_order`.
-/

namespace Brainfuck

/-! ## Rounds -/

/-- `Reached program q rest`: some rounds of the loop on `program`, none of which
found an error, led to the state `q`, and `rest` is still to be read. -/
inductive Pass.Reached (program : List UInt8) : Pass → List UInt8 → Prop
  | start : Reached program {} program
  | round {q q' : Pass} {b : UInt8} {rest : List UInt8} {news : Option Event} :
      Reached program q (b :: rest) → q.advance b (tokenLength b rest) = .ok (q', news) →
      Reached program q' (rest.drop (tokenLength b rest - 1))

/-- The compiler goes on from every state that is reached. -/
theorem Pass.Reached.exists_drive {program : List UInt8} {q : Pass} {rest : List UInt8}
    (reached : Reached program q rest) : ∃ log, compile program = q.drive log rest := by
  induction reached with
  | start => exact ⟨[], rfl⟩
  | @round q q' b rest news _ hadvance ih =>
    obtain ⟨log, hdrive⟩ := ih
    refine ⟨news.toList ++ log, ?_⟩
    rw [hdrive, drive]
    simp only [hadvance]

/-- A round without error leads from a draft to a draft. -/
theorem Draft.exists_of_advance {d : Draft} {b : UInt8} {rest : List UInt8} {q : Pass}
    {news : Option Event} (tight : d.Tight (b :: rest))
    (hadvance : d.pass.advance b (tokenLength b rest) = .ok (q, news)) :
    ∃ d' : Draft, d'.pass = q ∧
      d'.source ++ rest.drop (tokenLength b rest - 1) = d.source ++ b :: rest ∧
      d'.Tight (rest.drop (tokenLength b rest - 1)) := by
  cases hbyte : Instr.ofByte? b with
  | none =>
    rw [d.advance_foreign hbyte] at hadvance
    cases hadvance
  | some i =>
    cases Instr.byte_of_ofByte? hbyte
    cases i with
    | act a =>
      -- the token is the whole run at the front of the text
      obtain ⟨n, tail, htext, hhead, hpos⟩ := split_token a rest
      obtain ⟨k, rfl⟩ := Nat.exists_eq_succ_of_ne_zero (Nat.ne_of_gt hpos)
      rw [Instr.byte_act] at hadvance tight ⊢
      rw [htext] at tight ⊢
      rw [List.replicate_succ, List.cons_append] at htext
      cases (List.cons.inj htext).2
      rw [tokenLength_replicate hhead] at hadvance ⊢
      rw [d.advance_act] at hadvance
      cases hadvance
      rw [Nat.add_sub_cancel, List.drop_left' (List.length_replicate ..)]
      refine ⟨d.act a (k + 1), rfl, ?_, tight.act hpos hhead⟩
      rw [source_act, List.append_assoc]
    | opening =>
      rw [tokenLength_opening] at hadvance ⊢
      rw [d.advance_enter] at hadvance
      cases hadvance
      refine ⟨d.enter, rfl, ?_, tight.enter rest⟩
      rw [source_enter, List.append_assoc]
      rfl
    | closing =>
      rw [tokenLength_closing] at hadvance ⊢
      obtain ⟨outer, body⟩ := d
      cases outer with
      | nil =>
        rw [advance_unopened] at hadvance
        cases hadvance
      | cons b outer =>
        rw [advance_leave] at hadvance
        cases hadvance
        refine ⟨⟨outer, b.loop body⟩, rfl, ?_, tight.leave rest⟩
        rw [source_leave, List.append_assoc]
        rfl

/-- A reached state is that of the draft that was read. -/
theorem Pass.Reached.exists_draft {program : List UInt8} {q : Pass} {rest : List UInt8}
    (reached : Reached program q rest) :
    ∃ d : Draft, d.pass = q ∧ d.source ++ rest = program ∧ d.Tight rest := by
  induction reached with
  | start => exact ⟨{}, rfl, rfl, Draft.tight_empty program⟩
  | round _ hadvance ih =>
    obtain ⟨d, rfl, rfl, tight⟩ := ih
    exact Draft.exists_of_advance tight hadvance

/-! ## The stack -/

namespace Draft

/-- Inner loops are further to the right, in the program and in the array. -/
theorem openings_ordered (outer : List Block) :
    (openings outer).Pairwise fun inner o => o.pos < inner.pos ∧ o.slot < inner.slot := by
  induction outer with
  | nil => exact .nil
  | cons b outer ih =>
    refine List.pairwise_cons.mpr ⟨?_, ih⟩
    intro o ho
    have := lt_of_mem_openings ho
    simp only [slot, pos]
    omega

/-- An open loop has a jump without target. -/
theorem placeholder_of_mem {outer : List Block} {o : Opening} (ho : o ∈ openings outer) :
    (opsBefore outer)[o.slot]? = some (.jumpZero 0) := by
  induction outer with
  | nil => cases ho
  | cons b outer ih =>
    rw [opsBefore]
    rcases List.mem_cons.mp ho with rfl | ho
    · simp [slot]
    · have hlt := (lt_of_mem_openings ho).1
      rw [List.append_assoc, List.getElem?_append_left hlt]
      exact ih ho

end Draft

/-! ## Jumps of finished loops -/

namespace Op

/-- Every jump at another index than these is an end of a loop, and none of the
indices is inside of the loop. -/
def Settled (slots : List Nat) (ops : List Op) : Prop :=
  ∀ (k : Nat) op, ops[k]? = some op → op.isJump = true → k ∉ slots →
    ∃ i j, LoopAt 0 ops i j ∧ (k = i ∨ k = j) ∧ ∀ s ∈ slots, s < i ∨ j < s

variable {slots : List Nat} {ops : List Op}

/-- Finished loops may come behind. -/
theorem Settled.append (settled : Settled slots ops) (bound : ∀ s ∈ slots, s < ops.length)
    {back : List Op} (paired : Paired ops.length back) : Settled slots (ops ++ back) := by
  intro k op h hjump hslot
  by_cases hk : k < ops.length
  · rw [List.getElem?_append_left hk] at h
    obtain ⟨i, j, hloop, hend, haround⟩ := settled k op h hjump hslot
    exact ⟨i, j, hloop.append_left, hend, haround⟩
  · rw [List.getElem?_append_right (Nat.le_of_not_lt hk)] at h
    obtain ⟨i, j, hloop, hend⟩ := paired (k - ops.length) op h hjump
    rw [← Nat.zero_add ops.length] at hloop
    refine ⟨ops.length + i, ops.length + j, hloop.append_right, by omega, ?_⟩
    intro s hs
    have := bound s hs
    exact .inl (by omega)

/-- So may the jump of a loop that is open. -/
theorem Settled.enter (settled : Settled slots ops) :
    Settled (ops.length :: slots) (ops ++ [.jumpZero 0]) := by
  intro k op h hjump hslot
  rw [List.mem_cons, not_or] at hslot
  have hk : k < ops.length := by
    have := (List.getElem?_eq_some_iff.mp h).1
    rw [List.length_append, List.length_singleton] at this
    have := hslot.1
    omega
  rw [List.getElem?_append_left hk] at h
  obtain ⟨i, j, hloop, hend, haround⟩ := settled k op h hjump hslot.2
  refine ⟨i, j, hloop.append_left, hend, ?_⟩
  intro s hs
  rcases List.mem_cons.mp hs with rfl | hs
  · exact .inr hloop.lt_length
  · exact haround s hs

end Op

namespace Draft

theorem lt_of_mem_slots {outer : List Block} :
    ∀ s ∈ (openings outer).map Opening.slot, s < (opsBefore outer).length := by
  intro s hs
  obtain ⟨o, ho, rfl⟩ := List.mem_map.mp hs
  exact (lt_of_mem_openings ho).1

theorem settled_opsBefore (outer : List Block) :
    Op.Settled ((openings outer).map Opening.slot) (opsBefore outer) := by
  induction outer with
  | nil =>
    intro k op h
    cases h
  | cons b outer ih =>
    have hnext := (ih.append lt_of_mem_slots (b.paired_lower _)).enter
    rw [← slot_eq] at hnext
    exact hnext

theorem settled_ops (d : Draft) : Op.Settled ((openings d.outer).map Opening.slot) d.ops :=
  (settled_opsBefore d.outer).append lt_of_mem_slots (d.current.paired_lower _)

end Draft

/-! ## Runs -/

/-- A byte that opens or closes a loop. -/
def IsBracket (b : UInt8) : Prop := b = Instr.opening.byte ∨ b = Instr.closing.byte

/-- What was read ends with a bracket or with a run that does not go on. -/
theorem Draft.Tight.uncut {d : Draft} {rest : List UInt8} (tight : d.Tight rest) {x : UInt8}
    (hlast : d.source.getLast? = some x) : IsBracket x ∨ rest.head? ≠ some x := by
  obtain ⟨outer, current⟩ := d
  cases current with
  | empty =>
    cases outer with
    | nil => cases hlast
    | cons b outer =>
      rw [source, Block.source_empty, List.append_nil, textBefore, List.getLast?_concat] at hlast
      exact .inl (.inl (Option.some.inj hlast).symm)
  | act before a n =>
    have hend := tight.current.getLast?_source rfl
    rw [source, List.getLast?_append, hend] at hlast
    cases hlast
    exact .inr (tight.ready a rfl)
  | loop before body =>
    rw [source_leave, List.getLast?_concat] at hlast
    exact .inl (.inr (Option.some.inj hlast).symm)

/-! ## After every round -/

/-- What holds of the state of the compiler between two rounds. -/
structure Pass.InOrder (program : List UInt8) (q : Pass) : Prop where
  /-- The stack holds the positions of the `[` without partner in what was read. -/
  waiting : ∀ m, (∃ o ∈ q.openings, o.pos = m) ↔ Unclosed (program.take q.pos) m
  /-- From the outermost loop inwards, the positions increase. -/
  positions : (q.openings.reverse.map Opening.pos).Pairwise (· < ·)
  /-- From the outermost loop inwards, the indices increase. -/
  slots : (q.openings.reverse.map Opening.slot).Pairwise (· < ·)
  /-- The indices on the stack are in the array. -/
  bound : ∀ o ∈ q.openings, o.slot < q.ops.size
  /-- At these indices are jumps without target. -/
  placeholders : ∀ o ∈ q.openings, q.ops[o.slot]? = some (.jumpZero 0)
  /-- Every other jump is an end of a finished loop with no open one inside. -/
  settled : ∀ (k : Nat) op, q.ops[k]? = some op → op.isJump = true →
    (∀ o ∈ q.openings, o.slot ≠ k) →
    ∃ i j, q.ops.Pair i j ∧ (k = i ∨ k = j) ∧ ∀ o ∈ q.openings, o.slot < i ∨ j < o.slot
  /-- No run is cut in two. -/
  uncut : ∀ x y, 0 < q.pos → program[q.pos - 1]? = some x → program[q.pos]? = some y →
    IsBracket x ∨ IsBracket y ∨ x ≠ y

/-- The state of a compiler that has read a tight draft is in order. -/
theorem Draft.Tight.inOrder {d : Draft} {rest : List UInt8} (tight : d.Tight rest) :
    d.pass.InOrder (d.source ++ rest) := by
  have placeholder : ∀ o ∈ openings d.outer, d.ops[o.slot]? = some (.jumpZero 0) := by
    intro o ho
    rw [ops, List.getElem?_append_left (lt_of_mem_openings ho).1]
    exact placeholder_of_mem ho
  refine ⟨?_, ?_, ?_, ?_, ?_, ?_, ?_⟩
  · intro m
    show _ ↔ Unclosed (List.take d.source.length _) m
    rw [List.take_left]
    exact d.mem_openings_iff m
  · rw [List.map_reverse, List.pairwise_reverse, List.pairwise_map]
    exact (openings_ordered d.outer).imp And.left
  · rw [List.map_reverse, List.pairwise_reverse, List.pairwise_map]
    exact (openings_ordered d.outer).imp And.right
  · intro o ho
    exact (List.getElem?_eq_some_iff.mp (placeholder o ho)).1
  · intro o ho
    show d.ops.toArray[o.slot]? = _
    rw [List.getElem?_toArray]
    exact placeholder o ho
  · intro k op h hjump hslot
    have h : d.ops[k]? = some op := by rwa [← List.getElem?_toArray]
    have hk : k ∉ (openings d.outer).map Opening.slot := by
      intro hmem
      obtain ⟨o, ho, hsame⟩ := List.mem_map.mp hmem
      exact hslot o ho hsame
    obtain ⟨i, j, hloop, hend, haround⟩ := d.settled_ops k op h hjump hk
    refine ⟨i, j, Op.loopAt_zero_iff.mp hloop, hend, ?_⟩
    intro o ho
    exact haround o.slot (List.mem_map_of_mem ho)
  · intro x y hpos hx hy
    have hpos : 0 < d.source.length := hpos
    have hx : (d.source ++ rest)[d.source.length - 1]? = some x := hx
    have hy : (d.source ++ rest)[d.source.length]? = some y := hy
    rw [List.getElem?_append_left (by omega), ← List.getLast?_eq_getElem?] at hx
    rw [List.getElem?_append_right (Nat.le_refl _), Nat.sub_self, ← List.head?_eq_getElem?] at hy
    rcases tight.uncut hx with hbracket | hne
    · exact .inl hbracket
    · refine .inr (.inr ?_)
      rintro rfl
      exact hne hy

namespace Code

variable {ops : Code} {slot k : Nat}

/-- To fuse a loop changes nothing in front of it. -/
theorem getElem?_fuseAt (hk : k < slot) (hslot : slot < ops.size) (op : Op) :
    (ops.fuseAt slot op)[k]? = ops[k]? := by
  rw [fuseAt, Array.getElem?_push_lt (by simp; omega), Array.getElem_shrink]
  exact (Array.getElem?_eq_getElem _).symm

/-- To link a loop changes nothing in front of it. -/
theorem getElem?_linkAt (hk : k < slot) (hslot : slot < ops.size) :
    (ops.linkAt slot)[k]? = ops[k]? := by
  have hsize : k ≠ (ops.setIfInBounds slot (.jumpZero ops.size)).size := by
    rw [Array.size_setIfInBounds]
    omega
  rw [linkAt, Array.getElem?_push, if_neg hsize, Array.getElem?_setIfInBounds_ne (Nat.ne_of_gt hk)]

end Code

/-- The loop that a `]` closes next is in the array, and to close it leaves the
jumps of all loops around it as they are. -/
theorem Pass.InOrder.closes {program : List UInt8} {q : Pass} (h : q.InOrder program)
    {o : Opening} {outer : List Opening} (hopen : q.openings = o :: outer) :
    o.slot < q.ops.size ∧ ∀ o' ∈ outer,
      (∀ op, (q.ops.fuseAt o.slot op)[o'.slot]? = some (.jumpZero 0)) ∧
      (q.ops.linkAt o.slot)[o'.slot]? = some (.jumpZero 0) := by
  have hslot : o.slot < q.ops.size := h.bound o (by simp [hopen])
  refine ⟨hslot, ?_⟩
  intro o' ho'
  have horder := h.slots
  rw [hopen, List.map_reverse, List.pairwise_reverse, List.map_cons, List.pairwise_cons] at horder
  have hlt : o'.slot < o.slot := horder.1 o'.slot (List.mem_map_of_mem ho')
  have hjump : q.ops[o'.slot]? = some (.jumpZero 0) :=
    h.placeholders o' (by rw [hopen]; exact List.mem_cons_of_mem o ho')
  refine ⟨?_, ?_⟩
  · intro op
    rw [Code.getElem?_fuseAt hlt hslot, hjump]
  · rw [Code.getElem?_linkAt hlt hslot, hjump]

/-- **The compiler stays in order.** After any number of rounds of its loop on any
program, without an error so far, the state is in order, what is still to be read
is what stands behind its position, and the compiler goes on from there. The loop
that would be closed next is in the array, so that it can be looked at and be
replaced or linked, and neither of these touches the jump of another open loop. -/
theorem rounds_keep_order {program rest : List UInt8} {q : Pass}
    (reached : Pass.Reached program q rest) :
    q.InOrder program ∧ rest = program.drop q.pos ∧
    (∃ log, compile program = q.drive log rest) ∧
    ∀ o outer, q.openings = o :: outer → o.slot < q.ops.size ∧ ∀ o' ∈ outer,
      (∀ op, (q.ops.fuseAt o.slot op)[o'.slot]? = some (.jumpZero 0)) ∧
      (q.ops.linkAt o.slot)[o'.slot]? = some (.jumpZero 0) := by
  obtain ⟨d, rfl, rfl, tight⟩ := reached.exists_draft
  have order := tight.inOrder
  refine ⟨order, ?_, reached.exists_drive, ?_⟩
  · exact List.drop_left.symm
  · intro o outer hopen
    exact order.closes hopen

/-- Two open loops around one that was fused, in the middle of `[+[[-].`. -/
theorem rounds_keep_order_fused :
    Pass.Reached [91, 43, 91, 91, 45, 93, 46]
      ⟨6, #[.jumpZero 0, .run .inc 1, .jumpZero 0, .clear], [⟨2, 2⟩, ⟨0, 0⟩]⟩ [46] ∧
    Pass.InOrder [91, 43, 91, 91, 45, 93, 46]
      ⟨6, #[.jumpZero 0, .run .inc 1, .jumpZero 0, .clear], [⟨2, 2⟩, ⟨0, 0⟩]⟩ := by
  have empty := @Pass.Reached.start [91, 43, 91, 91, 45, 93, 46]
  have reached : Pass.Reached [91, 43, 91, 91, 45, 93, 46]
      ⟨6, #[.jumpZero 0, .run .inc 1, .jumpZero 0, .clear], [⟨2, 2⟩, ⟨0, 0⟩]⟩ [46] :=
    (((((empty.round rfl).round rfl).round rfl).round rfl).round rfl).round rfl
  exact ⟨reached, (rounds_keep_order reached).1⟩

end Brainfuck
