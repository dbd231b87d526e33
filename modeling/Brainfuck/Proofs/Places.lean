import Brainfuck.Proofs.PlainRun

/-!
# Places

The text of a program and its operations do not advance together: a run of
bytes is one operation, and a fused loop is one operation for all of its
bytes. There are places where they meet again, between two operations.
`Block.Meets` lists these for a block, as pairs of a position in the text and
an index into the operations.

What stands behind a place is a run, a loop that is fused, or one of the
brackets of a loop that is not (`Stands`), together with the places where
execution can go on from there. `Meets.end_or_stands` says that every place is
the end of the block or of this kind; that the two ends of a loop know each
other, in the text and among the operations, is part of it.
-/

namespace Brainfuck

/-- Behind position `x` of the text and index `k` of the operations stands the
same piece of the program, and it leads to places. -/
inductive Stands (program : List UInt8) (ops : List Op) (Place : Nat → Nat → Prop) (x k : Nat) :
    Prop
  | run {a : Action} {n : Nat} {rest : List UInt8} : 0 < n →
      program.drop x = List.replicate n a.byte ++ rest → ops[k]? = some (.run a n) →
      Place (x + n) (k + 1) → Stands program ops Place x k
  /-- The loop as a whole. -/
  | fused {body : Block} {last : Nat} {op : Op} : body.Tight →
      Plain.Loop program x last body.source → Op.fuse? (body.lower 0) = some op →
      ops[k]? = some op → Place (last + 1) (k + 1) → Stands program ops Place x k
  /-- The first bracket: into the body, or behind the loop. -/
  | opening {body : List UInt8} {last target : Nat} : Plain.Loop program x last body →
      ops[k]? = some (.jumpZero target) → Place (x + 1) (k + 1) →
      Place (last + 1) (target + 1) → Stands program ops Place x k
  /-- The last bracket: behind the loop, or into the body once more. -/
  | closing {body : List UInt8} {first target : Nat} : Plain.Loop program first x body →
      ops[k]? = some (.jumpNonzero target) → Place (x + 1) (k + 1) →
      Place (first + 1) (target + 1) → Stands program ops Place x k

theorem Stands.mono {program : List UInt8} {ops : List Op} {P Q : Nat → Nat → Prop} {x k : Nat}
    (h : Stands program ops P x k) (sub : ∀ x k, P x k → Q x k) : Stands program ops Q x k := by
  cases h with
  | run hn htext hop hnext => exact .run hn htext hop (sub _ _ hnext)
  | fused htight hloop hfuse hop hnext => exact .fused htight hloop hfuse hop (sub _ _ hnext)
  | opening hloop hop hin hout => exact .opening hloop hop (sub _ _ hin) (sub _ _ hout)
  | closing hloop hop hout hin => exact .closing hloop hop (sub _ _ hout) (sub _ _ hin)

namespace Block

/-- The places of a block whose text starts at `pos` and whose operations start
at `pc`. -/
inductive Meets : Block → Nat → Nat → Nat → Nat → Prop
  | finish (b : Block) (pos pc : Nat) : Meets b pos pc (pos + b.source.length) (pc + b.size)
  | act {before : Block} {pos pc x k : Nat} (a : Action) (n : Nat) :
      Meets before pos pc x k → Meets (before.act a n) pos pc x k
  | loop {before : Block} {pos pc x k : Nat} (body : Block) :
      Meets before pos pc x k → Meets (before.loop body) pos pc x k
  /-- A loop that is not fused has places inside. -/
  | body {before body : Block} {pos pc x k : Nat} : Op.fuse? (body.lower 0) = none →
      Meets body (pos + before.source.length + 1) (pc + before.size + 1) x k →
      Meets (before.loop body) pos pc x k

theorem meets_start (b : Block) (pos pc : Nat) : b.Meets pos pc pos pc := by
  induction b with
  | empty => exact .finish .empty pos pc
  | act before a n ih => exact .act a n ih
  | loop before body ih _ => exact .loop body ih

theorem Meets.le {b : Block} {pos pc x k : Nat} (h : b.Meets pos pc x k) : k ≤ pc + b.size := by
  induction h with
  | finish b pos pc => exact Nat.le_refl _
  | act a n _ ih =>
    rw [size_act]
    omega
  | @loop before pos pc x k body _ ih =>
    cases hfuse : Op.fuse? (body.lower 0) with
    | none =>
      rw [size_loop_of_none hfuse]
      omega
    | some op =>
      rw [size_loop_of_some hfuse]
      omega
  | body hfuse _ ih =>
    rw [size_loop_of_none hfuse]
    omega

section Context

variable {program front back : List UInt8} {ops opsFront opsBack : List Op}

/-- Behind the block of a run stands the run. -/
theorem stands_act {before : Block} {a : Action} {n : Nat} (positive : 0 < n)
    (hprogram : program = front ++ ((before.act a n).source ++ back))
    (hops : ops = opsFront ++ ((before.act a n).lower opsFront.length ++ opsBack)) :
    Stands program ops ((before.act a n).Meets front.length opsFront.length)
      (front.length + before.source.length) (opsFront.length + before.size) := by
  have hnext := Meets.finish (before.act a n) front.length opsFront.length
  rw [length_source_act, size_act, ← Nat.add_assoc, ← Nat.add_assoc] at hnext
  have htext : program.drop (front.length + before.source.length) =
      List.replicate n a.byte ++ back := by
    rw [hprogram]
    simp [source, List.drop_append]
  have hop : ops[opsFront.length + before.size]? = some (.run a n) := by
    rw [hops]
    simp [lower]
  exact .run positive htext hop hnext

/-- The loop of a block is a loop of the text around it. -/
theorem loop_of_append {before body : Block}
    (hprogram : program = front ++ ((before.loop body).source ++ back)) :
    Plain.Loop program (front.length + before.source.length)
      (front.length + before.source.length + 1 + body.source.length) body.source := by
  have hloop := Plain.loop_bracket (front ++ before.source) back body
  rw [List.length_append] at hloop
  rw [hprogram, source]
  simpa using hloop

/-- The end of a block with a loop, counted from its brackets. -/
theorem meets_finish_loop {before body : Block} {pos pc : Nat}
    (hfuse : Op.fuse? (body.lower 0) = none) :
    (before.loop body).Meets pos pc (pos + before.source.length + 1 + body.source.length + 1)
      (pc + before.size + 1 + body.size + 1) := by
  have hfinish := Meets.finish (before.loop body) pos pc
  rw [length_source_loop, size_loop_of_none hfuse] at hfinish
  have hpos : pos + (before.source.length + body.source.length + 2) =
      pos + before.source.length + 1 + body.source.length + 1 := by omega
  have hpc : pc + (before.size + body.size + 2) = pc + before.size + 1 + body.size + 1 := by omega
  rw [hpos, hpc] at hfinish
  exact hfinish

/-- In front of a loop stands the operation it is fused to, or its first
bracket. -/
theorem stands_loop {before body : Block} (tight : body.Tight)
    (hprogram : program = front ++ ((before.loop body).source ++ back))
    (hops : ops = opsFront ++ ((before.loop body).lower opsFront.length ++ opsBack)) :
    Stands program ops ((before.loop body).Meets front.length opsFront.length)
      (front.length + before.source.length) (opsFront.length + before.size) := by
  have hloop := loop_of_append hprogram
  rw [lower_loop] at hops
  cases hfuse : Op.fuse? (body.lower 0) with
  | some op =>
    have hnext := Meets.finish (before.loop body) front.length opsFront.length
    rw [length_source_loop, size_loop_of_some hfuse, ← Nat.add_assoc] at hnext
    have hop : ops[opsFront.length + before.size]? = some op := by
      rw [hops, Op.enclose_of_some ((fuse?_lower _ body).trans hfuse)]
      simp
    refine .fused tight hloop hfuse hop ?_
    rw [show front.length + before.source.length + 1 + body.source.length + 1 =
      front.length + (before.source.length + body.source.length + 2) by omega]
    exact hnext
  | none =>
    have hop : ops[opsFront.length + before.size]? =
        some (.jumpZero (opsFront.length + before.size + 1 + body.size)) := by
      rw [hops, Op.enclose_of_none ((fuse?_lower _ body).trans hfuse)]
      simp
    exact .opening hloop hop (.body hfuse (body.meets_start _ _)) (meets_finish_loop hfuse)

/-- Behind the body of a loop that is not fused stands its last bracket. -/
theorem stands_body {before body : Block} (hfuse : Op.fuse? (body.lower 0) = none)
    (hprogram : program = front ++ ((before.loop body).source ++ back))
    (hops : ops = opsFront ++ ((before.loop body).lower opsFront.length ++ opsBack)) :
    Stands program ops ((before.loop body).Meets front.length opsFront.length)
      (front.length + before.source.length + 1 + body.source.length)
      (opsFront.length + before.size + 1 + body.size) := by
  have hindex : opsFront.length + before.size + 1 + body.size =
      opsFront.length + (before.size + (body.size + 1)) := by omega
  have hop : ops[opsFront.length + before.size + 1 + body.size]? =
      some (.jumpNonzero (opsFront.length + before.size)) := by
    rw [hops, lower_loop, Op.enclose_of_none ((fuse?_lower _ body).trans hfuse), hindex]
    simp
  exact .closing (loop_of_append hprogram) hop (meets_finish_loop hfuse)
    (.body hfuse (body.meets_start _ _))

/-- Every place of a block is its end, or a run, a fused loop or a bracket stands
there, whatever the block stands in. -/
theorem Meets.end_or_stands {b : Block} (tight : b.Tight) {x k : Nat}
    (hprogram : program = front ++ (b.source ++ back))
    (hops : ops = opsFront ++ (b.lower opsFront.length ++ opsBack))
    (h : b.Meets front.length opsFront.length x k) :
    x = front.length + b.source.length ∧ k = opsFront.length + b.size ∨
      Stands program ops (b.Meets front.length opsFront.length) x k := by
  induction b generalizing front back opsFront opsBack x k with
  | empty =>
    cases h with
    | finish => exact .inl ⟨rfl, rfl⟩
  | act before a n ih =>
    cases tight with
    | act htight hlast hpositive =>
      cases h with
      | finish => exact .inl ⟨rfl, rfl⟩
      | act _ _ hbefore =>
        have htext : program = front ++ (before.source ++ (List.replicate n a.byte ++ back)) := by
          simp [hprogram, source]
        have hcode : ops =
            opsFront ++ (before.lower opsFront.length ++ ([.run a n] ++ opsBack)) := by
          simp [hops, lower]
        rcases ih htight htext hcode hbefore with ⟨rfl, rfl⟩ | hstands
        · exact .inr (stands_act hpositive hprogram hops)
        · exact .inr (hstands.mono fun x k => .act a n)
  | loop before body ihBefore ihBody =>
    cases tight with
    | loop htight htightBody =>
      cases h with
      | finish => exact .inl ⟨rfl, rfl⟩
      | loop _ hbefore =>
        have htext : program =
            front ++ (before.source ++ (Op.bracket body.source ++ back)) := by
          simp [hprogram, source]
        have hcode : ops = opsFront ++ (before.lower opsFront.length ++
            (Op.enclose (opsFront.length + before.size)
              (body.lower (opsFront.length + before.size + 1)) ++ opsBack)) := by
          simp [hops, lower_loop]
        rcases ihBefore htight htext hcode hbefore with ⟨rfl, rfl⟩ | hstands
        · exact .inr (stands_loop htightBody hprogram hops)
        · exact .inr (hstands.mono fun x k => .loop body)
      | body hfuse hbody =>
        -- the body stands in the text and in the operations behind the first bracket
        obtain ⟨front', hfront'⟩ : ∃ l, l = front ++ before.source ++ [Instr.opening.byte] :=
          ⟨_, rfl⟩
        obtain ⟨opsFront', hopsFront'⟩ : ∃ l, l = opsFront ++ before.lower opsFront.length ++
            [Op.jumpZero (opsFront.length + before.size + 1 + body.size)] := ⟨_, rfl⟩
        have hfront : front'.length = front.length + before.source.length + 1 := by
          simp [hfront', Nat.add_assoc]
        have hopsFront : opsFront'.length = opsFront.length + before.size + 1 := by
          simp [hopsFront', Nat.add_assoc]
        have htext : program = front' ++ (body.source ++ (Instr.closing.byte :: back)) := by
          simp [hprogram, hfront', source, Op.bracket]
        have hcode : ops = opsFront' ++ (body.lower opsFront'.length ++
            (.jumpNonzero (opsFront.length + before.size) :: opsBack)) := by
          rw [hops, lower_loop, Op.enclose_of_none ((fuse?_lower _ body).trans hfuse), hopsFront,
            hopsFront']
          simp
        rw [← hfront, ← hopsFront] at hbody
        have hstands := ihBody htightBody htext hcode hbody
        rw [hfront, hopsFront] at hstands
        rcases hstands with ⟨rfl, rfl⟩ | hstands
        · exact .inr (stands_body hfuse hprogram hops)
        · exact .inr (hstands.mono fun x k => .body hfuse)

end Context

end Block

end Brainfuck
