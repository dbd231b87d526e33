import Brainfuck.Proofs.Draft

/-!
# Compiling piece by piece

The compiler is one loop over the bytes with an array that grows and shrinks,
and yet it can be told by the structure of the program. The reason is that it
never looks back beyond the innermost open bracket:

* **one token** — a round of the loop takes a draft to the next one
  (`Draft.drive_act`, `Draft.drive_enter`, `Draft.drive_leave`);
* **one block** — the loop passes over the text of a tight block and has the
  block at the end of its draft, whatever was read before and whatever comes
  behind (`Block.Tight.exists_drive`);
* **programs** — a tight block compiles to its own operations
  (`Block.Tight.compile_source`), and so do two blocks in a row
  (`Block.Tight.compile_append`).

The main result is `compile_composes`: programs in a row compile to their
arrays in a row, and a program in brackets to its array between two jumps, or
to one operation. Only the targets of jumps change.
-/

namespace Brainfuck

/-- Different actions are written with different bytes. -/
theorem Action.eq_of_byte_eq {a b : Action} (h : a.byte = b.byte) : a = b := by
  have hread : Instr.ofByte? (Instr.act a).byte = Instr.ofByte? (Instr.act b).byte :=
    congrArg Instr.ofByte? h
  rw [Instr.ofByte?_byte, Instr.ofByte?_byte] at hread
  cases hread
  rfl

/-! ## Blocks in a row -/

namespace Block

/-- One block behind another. -/
def append (b : Block) : Block → Block
  | empty => b
  | act before a n => (b.append before).act a n
  | loop before body => (b.append before).loop body

theorem lower_append (base : Nat) (b c : Block) :
    (b.append c).lower base = b.lower base ++ c.lower (base + b.size) := by
  induction c with
  | empty => simp [append, lower]
  | act before a n ih => simp [append, lower, ih]
  | loop before body ih _ =>
    have hsize : (b.append before).size = b.size + before.size := by
      rw [← length_lower base, ih]
      simp
    simp [append, lower_loop, ih, hsize, Nat.add_assoc]

theorem empty_append (b : Block) : empty.append b = b := by
  induction b with
  | empty => rfl
  | act before a n ih => rw [append, ih]
  | loop before body ih _ => rw [append, ih]

theorem code_append (b c : Block) :
    (b.append c).code = b.code ++ c.code.map (Op.shift b.code.size) := by
  have hsize : b.code.size = b.size := rfl
  rw [hsize]
  simp [code, lower_append, lower_eq_map_shift b.size c]

/-- A tight block that ends with a run ends with the byte of the run. -/
theorem Tight.getLast?_source {b : Block} (tight : b.Tight) {a : Action}
    (h : b.last? = some a) : b.source.getLast? = some a.byte := by
  cases tight with
  | empty => cases h
  | act _ _ positive =>
    cases h
    rw [source, List.getLast?_append, List.getLast?_replicate, if_neg (by omega)]
    rfl
  | loop _ _ => cases h

end Block

/-! ## The compiler on blocks -/

namespace Draft

theorem result_drive_nil (b : Block) (log : List Event) :
    ((pass ⟨[], b⟩).drive log []).result = .ok b.code := by
  rw [Pass.drive]
  simp [pass, Pass.finish, openings, ops, opsBefore, Block.code]

end Draft

namespace Block

/-- The text to come does not go on with the run at the end of a block. -/
def Ready (b : Block) (text : List UInt8) : Prop :=
  ∀ a, b.last? = some a → text.head? ≠ some a.byte

theorem ready_nil (b : Block) : b.Ready [] := by
  intro a _ h
  cases h

/-- The compiler passes over the text of a tight block and has the block at the
end of its draft. -/
theorem Tight.exists_drive {b : Block} (tight : b.Tight) (outer : List Block) (current : Block)
    (log : List Event) {rest : List UInt8} (ready : b.Ready rest) :
    ∃ log', (Draft.pass ⟨outer, current⟩).drive log (b.source ++ rest) =
      (Draft.pass ⟨outer, current.append b⟩).drive log' rest := by
  induction tight generalizing outer current log rest with
  | empty => exact ⟨log, rfl⟩
  | @act before a n _ distinct positive ih =>
    have readyBefore : before.Ready (List.replicate n a.byte ++ rest) := by
      intro a' hlast hhead
      rw [List.head?_append, List.head?_replicate, if_neg (by omega)] at hhead
      cases Action.eq_of_byte_eq (Option.some.inj hhead)
      exact distinct hlast
    obtain ⟨log', hbefore⟩ := ih outer current log readyBefore
    refine ⟨log', ?_⟩
    rw [source, List.append_assoc, hbefore, Draft.drive_act _ _ positive (ready a rfl)]
    rfl
  | @loop before body _ _ ihBefore ihBody =>
    -- a bracket on either side ends every run
    have readyBefore : before.Ready
        (Instr.opening.byte :: (body.source ++ Instr.closing.byte :: rest)) := by
      intro a _ hhead
      exact a.byte_ne_opening (Option.some.inj hhead).symm
    have readyBody : body.Ready (Instr.closing.byte :: rest) := by
      intro a _ hhead
      exact a.byte_ne_closing (Option.some.inj hhead).symm
    obtain ⟨log₁, hbefore⟩ := ihBefore outer current log readyBefore
    obtain ⟨log₂, hbody⟩ := ihBody (current.append before :: outer) .empty log₁ readyBody
    rw [source_loop_append, hbefore, Draft.drive_enter, Draft.enter, hbody, empty_append, Draft.drive_leave]
    exact ⟨_, rfl⟩

/-- A tight block compiles to its own operations. -/
theorem Tight.compile_source {b : Block} (tight : b.Tight) :
    (compile b.source).result = .ok b.code := by
  obtain ⟨log, hdrive⟩ := tight.exists_drive [] .empty [] b.ready_nil
  rw [List.append_nil, empty_append] at hdrive
  have hcompile : compile b.source = (Draft.pass ⟨[], .empty⟩).drive [] b.source := rfl
  rw [hcompile, hdrive, Draft.result_drive_nil]

/-- Two tight blocks compile to their operations in a row. -/
theorem Tight.compile_append {b c : Block} (tight : b.Tight) (tight' : c.Tight)
    (ready : b.Ready c.source) :
    (compile (b.source ++ c.source)).result = .ok (b.append c).code := by
  obtain ⟨log, hdrive⟩ := tight.exists_drive [] .empty [] ready
  obtain ⟨log', hdrive'⟩ := tight'.exists_drive [] b log c.ready_nil
  rw [empty_append] at hdrive
  rw [List.append_nil] at hdrive'
  have hcompile : compile (b.source ++ c.source) =
      (Draft.pass ⟨[], .empty⟩).drive [] (b.source ++ c.source) := rfl
  rw [hcompile, hdrive, hdrive', Draft.result_drive_nil]

end Block

/-! ## Programs -/

/-- Compiling goes along with the structure of programs. If `p` and `q` do not
meet in the middle of a run, `p ++ q` compiles to the array of `p` and, moved
behind it, the array of `q`; and `p` in brackets compiles to one operation if
its array is an idiom, and else to its array between two jumps. -/
theorem compile_composes {p q : List UInt8} {a b : Code}
    (accepted : (compile p).result = .ok a) (accepted' : (compile q).result = .ok b)
    (short : p.length ≤ offsetMax) :
    ((p = [] ∨ q = [] ∨ p.getLast? ≠ q.head?) →
      (compile (p ++ q)).result = .ok (a ++ b.map (Op.shift a.size))) ∧
    (∀ op, Op.Idiom a.toList op → (compile (Op.bracket p)).result = .ok #[op]) ∧
    ((∀ op, ¬ Op.Idiom a.toList op) → (compile (Op.bracket p)).result =
      .ok (#[.jumpZero (a.size + 1)] ++ a.map (Op.shift 1) ++ #[.jumpNonzero 0])) := by
  obtain ⟨front, tight, rfl, rfl⟩ := exists_block_of_compile accepted
  obtain ⟨back, tight', rfl, rfl⟩ := exists_block_of_compile accepted'
  have hbracket : Op.bracket front.source = (Block.empty.loop front).source := rfl
  have hloop := (Block.Tight.loop .empty tight).compile_source
  have hcode : (Block.empty.loop front).code = (Op.enclose 0 (front.lower 1)).toArray := rfl
  rw [hcode] at hloop
  refine ⟨?_, ?_, ?_⟩
  · intro hmeet
    rw [← Block.code_append]
    apply tight.compile_append tight'
    intro x hlast hhead
    have hend := tight.getLast?_source hlast
    rcases hmeet with hnil | hnil | hne
    · rw [hnil] at hend
      cases hend
    · rw [hnil] at hhead
      cases hhead
    · exact hne (hend.trans hhead.symm)
  · intro op hidiom
    have hfuse : Op.fuse? (front.lower 0) = some op := by
      apply Op.fuse?_of_idiom hidiom
      intro x n hrun
      have := Block.le_length_source_of_run_mem hrun
      omega
    rw [hbracket, hloop, Op.enclose_of_some ((Block.fuse?_lower 1 front).trans hfuse)]
  · intro hkept
    have hfuse : Op.fuse? (front.lower 0) = none := Op.fuse?_eq_none_of_not_idiom hkept
    rw [hbracket, hloop, Op.enclose_of_none ((Block.fuse?_lower 1 front).trans hfuse),
      Block.lower_eq_map_shift]
    simp [Block.code, Nat.add_comm]

/-- A transfer loop in front of a nested loop, and both in brackets. -/
theorem compile_composes_transfer :
    (compile "->+<".toUTF8.data.toList).result =
      .ok #[.run .dec 1, .run .right 1, .run .inc 1, .run .left 1] ∧
    (compile "[.[-]>]".toUTF8.data.toList).result =
      .ok #[.jumpZero 4, .run .write 1, .clear, .run .right 1, .jumpNonzero 0] ∧
    (compile ("->+<".toUTF8.data.toList ++ "[.[-]>]".toUTF8.data.toList)).result =
      .ok #[.run .dec 1, .run .right 1, .run .inc 1, .run .left 1, .jumpZero 8, .run .write 1,
        .clear, .run .right 1, .jumpNonzero 4] ∧
    (compile (Op.bracket "->+<".toUTF8.data.toList)).result = .ok #[.transfer 1] ∧
    (compile (Op.bracket "[.[-]>]".toUTF8.data.toList)).result =
      .ok #[.jumpZero 6, .jumpZero 5, .run .write 1, .clear, .run .right 1, .jumpNonzero 1,
        .jumpNonzero 0] := by
  have first : (compile "->+<".toUTF8.data.toList).result =
      .ok #[.run .dec 1, .run .right 1, .run .inc 1, .run .left 1] := by decide +kernel
  have second : (compile "[.[-]>]".toUTF8.data.toList).result =
      .ok #[.jumpZero 4, .run .write 1, .clear, .run .right 1, .jumpNonzero 0] := by decide +kernel
  obtain ⟨hrow, hfused, -⟩ := compile_composes first second (by decide)
  obtain ⟨-, -, hkept⟩ := compile_composes second first (by decide)
  refine ⟨first, second, ?_, hfused _ (.giveRight 1), ?_⟩
  · rw [hrow (.inr (.inr (by decide)))]
    simp [Op.shift]
  · rw [hkept (by rintro op ⟨⟩)]
    simp [Op.shift]

end Brainfuck
