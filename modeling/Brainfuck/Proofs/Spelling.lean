import Brainfuck.Proofs.Brackets
import Brainfuck.Proofs.Composition

/-!
# Spelling out what was compiled

Compiling a program and spelling out its array gives the program back, but for
the loops that only add or only subtract: all of these are spelled `[-]`.
`normalSource` makes that change in the text, and has to find the loops in it:

* **in the text** — such a loop is a `[`, at least one `+` or at least one `-`,
  and a `]` (`afterClearing?_eq_some_iff`);
* **in a block** — the `]` that ends the loop in the text is the one that ends
  it in the block, because a search for it passes over the body
  (`Block.exists_source_of_afterClearing?`);
* **in the array** — such a loop is a single `clear` and no other loop is,
  since the text of the body decides what the body compiles to
  (`Op.flatMap_spell_enclose`).

The main result is `spell_compile`.
-/

namespace Brainfuck

/-! ## Loops that only add or only subtract -/

/-- A loop that only repeats this action can be left only with a zero. -/
def Action.Clears (a : Action) : Prop := a = .inc ∨ a = .dec

theorem Action.clears_iff_byte {b : UInt8} :
    (b = Action.inc.byte ∨ b = Action.dec.byte) ↔ ∃ a : Action, a.Clears ∧ b = a.byte := by
  constructor
  · rintro (rfl | rfl)
    · exact ⟨.inc, .inl rfl, rfl⟩
    · exact ⟨.dec, .inr rfl, rfl⟩
  · rintro ⟨a, rfl | rfl, rfl⟩
    · exact .inl rfl
    · exact .inr rfl

theorem Op.fuse?_of_clears {a : Action} (h : a.Clears) (n : Nat) :
    Op.fuse? [.run a n] = some .clear := by
  rcases h with rfl | rfl <;> rfl

/-- A loop that only adds or only subtracts is a run of one byte and a `]`. -/
theorem afterClearing?_eq_some_iff {text after : List UInt8} :
    afterClearing? text = some after ↔ ∃ (a : Action) (n : Nat), a.Clears ∧
      text = List.replicate (n + 1) a.byte ++ Instr.closing.byte :: after := by
  constructor
  · intro h
    cases text with
    | nil => cases h
    | cons b rest =>
      rw [afterClearing?] at h
      split at h
      · rename_i hb
        obtain ⟨a, hclears, rfl⟩ := Action.clears_iff_byte.mp hb
        split at h
        · cases h
        · rename_i c tail hdrop
          split at h
          · rename_i hc
            cases h
            obtain ⟨n, hrest⟩ := exists_replicate_append_dropWhile a.byte rest
            rw [hdrop, hc] at hrest
            refine ⟨a, n, hclears, ?_⟩
            rw [List.replicate_succ, List.cons_append, ← hrest]
          · cases h
      · cases h
  · rintro ⟨a, n, hclears, rfl⟩
    have hdrop : (List.replicate n a.byte ++ Instr.closing.byte :: after).dropWhile (· == a.byte) =
        Instr.closing.byte :: after := by
      rw [List.dropWhile_append_of_pos (by simp), List.dropWhile_cons_of_neg]
      simpa using a.byte_ne_closing.symm
    rw [List.replicate_succ, List.cons_append, afterClearing?,
      if_pos (Action.clears_iff_byte.mpr ⟨a, hclears, rfl⟩), hdrop]
    simp

/-! ## Normal texts -/

theorem normalSource_of_ne_opening {b : UInt8} (h : b ≠ Instr.opening.byte) (rest : List UInt8) :
    normalSource (b :: rest) = b :: normalSource rest := by
  rw [normalSource, if_neg h]

theorem normalSource_replicate (a : Action) (n : Nat) (rest : List UInt8) :
    normalSource (List.replicate n a.byte ++ rest) =
      List.replicate n a.byte ++ normalSource rest := by
  induction n with
  | zero => rfl
  | succ n ih =>
    rw [List.replicate_succ, List.cons_append, normalSource_of_ne_opening a.byte_ne_opening, ih,
      List.cons_append]

theorem normalSource_of_some {rest after : List UInt8} (h : afterClearing? rest = some after) :
    normalSource (Instr.opening.byte :: rest) =
      Op.bracket [Action.dec.byte] ++ normalSource after := by
  rw [normalSource, if_pos rfl]
  split
  · rename_i after' h'
    rw [h] at h'
    cases h'
    rfl
  · rename_i h'
    rw [h] at h'
    cases h'

theorem normalSource_of_none {rest : List UInt8} (h : afterClearing? rest = none) :
    normalSource (Instr.opening.byte :: rest) = Instr.opening.byte :: normalSource rest := by
  rw [normalSource, if_pos rfl]
  split
  · rename_i after' h'
    rw [h] at h'
    cases h'
  · rfl

theorem length_normalSource_le (text : List UInt8) : (normalSource text).length ≤ text.length := by
  fun_induction normalSource text with
  | case1 => exact Nat.le_refl 0
  | case2 rest after hafter ih =>
    -- the loop has three bytes or more
    obtain ⟨a, n, -, rfl⟩ := afterClearing?_eq_some_iff.mp hafter
    simp [Op.bracket]
    omega
  | case3 rest hafter ih => exact Nat.succ_le_succ ih
  | case4 b rest hb ih => exact Nat.succ_le_succ ih

/-! ## The operations of a loop, spelled out -/

namespace Op

theorem spellMoves_natCast (n : Nat) : spellMoves n = List.replicate n Action.right.byte := by
  simp [spellMoves]

theorem spellMoves_neg_natCast (n : Nat) :
    spellMoves (-n) = List.replicate n Action.left.byte := by
  cases n with
  | zero => rfl
  | succ n =>
    have hneg : ¬ (0 : Int) ≤ -((n + 1 : Nat) : Int) := by omega
    rw [spellMoves, if_neg hneg, Int.natAbs_neg, Int.natAbs_natCast]

/-- The operation for an idiom is spelled as the loop it stands for, unless it
clears the cell. -/
theorem Idiom.spell_eq {ops : List Op} {op : Op} (h : Idiom ops op) (hop : op ≠ .clear) :
    op.spell = bracket (ops.flatMap spell) := by
  cases h with
  | adding n => exact absurd rfl hop
  | subtracting n => exact absurd rfl hop
  | scanRight n => simp [spell, spellMoves_natCast]
  | scanLeft n => simp [spell, spellMoves_neg_natCast]
  | giveRight k => simp [spell, spellMoves_natCast, spellMoves_neg_natCast]
  | giveLeft k => simp [spell, spellMoves_natCast, spellMoves_neg_natCast]

/-- A loop that is not a single `clear` is spelled as its body in brackets. -/
theorem flatMap_spell_enclose {slot : Nat} {inner : List Op} (h : fuse? inner ≠ some .clear) :
    (enclose slot inner).flatMap spell = bracket (inner.flatMap spell) := by
  cases hf : fuse? inner with
  | none =>
    rw [enclose_of_none hf]
    simp [spell, bracket]
  | some op =>
    have hop : op ≠ .clear := by
      rintro rfl
      exact h hf
    rw [enclose_of_some hf, List.flatMap_singleton, (idiom_of_fuse? hf).spell_eq hop]

end Op

namespace Block

theorem tight_run {a : Action} {n : Nat} (positive : 0 < n) : (Block.empty.act a n).Tight :=
  .act .empty (by simp [last?]) positive

/-- The text of a tight block decides its operations. -/
theorem Tight.lower_eq_of_source_eq {b c : Block} (tight : b.Tight) (tight' : c.Tight)
    (h : b.source = c.source) : b.lower 0 = c.lower 0 := by
  have hcode := tight.compile_source
  rw [h, tight'.compile_source] at hcode
  have hsame : c.code = b.code := Except.ok.inj hcode
  exact (congrArg Array.toList hsame).symm

/-- A loop around a block that only adds or only subtracts in the text does so
in the block, and it ends in the same place. -/
theorem exists_source_of_afterClearing? {body : Block} {rest after : List UInt8}
    (h : afterClearing? (body.source ++ Instr.closing.byte :: rest) = some after) :
    ∃ (a : Action) (n : Nat), a.Clears ∧ body.source = List.replicate (n + 1) a.byte ∧
      after = rest := by
  obtain ⟨a, n, hclears, htext⟩ := afterClearing?_eq_some_iff.mp h
  have hblock := body.neutral_source 0 (Instr.closing.byte :: rest)
  have hrun := Plain.Neutral.replicate a.byte_ne_opening a.byte_ne_closing (n + 1) 0
    (Instr.closing.byte :: after)
  rw [Plain.partner_far_zero] at hblock hrun
  -- one text has one partner for the bracket in front of it
  rw [htext, hrun] at hblock
  have hlength : body.source.length = (List.replicate (n + 1) a.byte).length := by
    simpa using hblock.symm
  obtain ⟨hsource, hrest⟩ := List.append_inj htext hlength
  cases hrest
  exact ⟨a, n, hclears, hsource, rfl⟩

/-- A tight body is fused to a `clear` exactly if it only adds or only
subtracts. -/
theorem Tight.fuse?_eq_clear_iff {base : Nat} {body : Block} (tight : body.Tight) :
    Op.fuse? (body.lower base) = some .clear ↔
      ∃ (a : Action) (n : Nat), a.Clears ∧ body.source = List.replicate (n + 1) a.byte := by
  rw [fuse?_lower]
  constructor
  · intro h
    have hsource := source_eq_flatMap_spell (Op.idiom_of_fuse? h).isRun_of_mem
    have hpos : ∀ a n, .run a n ∈ body.lower 0 → 0 < n := fun a n => tight.pos_of_run_mem
    generalize body.lower 0 = ops at h hsource hpos
    cases Op.idiom_of_fuse? h with
    | adding n =>
      obtain ⟨k, rfl⟩ := Nat.exists_eq_succ_of_ne_zero (Nat.ne_of_gt (hpos .inc n (by simp)))
      exact ⟨.inc, k, .inl rfl, by simpa [Op.spell] using hsource⟩
    | subtracting n =>
      obtain ⟨k, rfl⟩ := Nat.exists_eq_succ_of_ne_zero (Nat.ne_of_gt (hpos .dec n (by simp)))
      exact ⟨.dec, k, .inr rfl, by simpa [Op.spell] using hsource⟩
  · rintro ⟨a, n, hclears, hsource⟩
    have hrun : body.source = (Block.empty.act a (n + 1)).source := by simp [hsource, source]
    rw [tight.lower_eq_of_source_eq (tight_run (Nat.succ_pos n)) hrun]
    exact Op.fuse?_of_clears hclears (n + 1)

/-- Spelling out the operations of a tight block normalizes its text, whatever
comes behind. -/
theorem Tight.normalSource_append {b : Block} (tight : b.Tight) (base : Nat) (rest : List UInt8) :
    normalSource (b.source ++ rest) = (b.lower base).flatMap Op.spell ++ normalSource rest := by
  induction tight generalizing base rest with
  | empty => simp [lower]
  | @act before a n _ _ _ ih =>
    rw [source, List.append_assoc, ih base, normalSource_replicate]
    simp [lower, Op.spell]
  | @loop before body _ tightBody ihBefore ihBody =>
    rw [source_loop_append, ihBefore base, lower_loop, List.flatMap_append, List.append_assoc]
    congr 1
    cases hafter : afterClearing? (body.source ++ Instr.closing.byte :: rest) with
    | some after =>
      obtain ⟨a, n, hclears, hsource, rfl⟩ := exists_source_of_afterClearing? hafter
      rw [normalSource_of_some hafter,
        Op.enclose_of_some (tightBody.fuse?_eq_clear_iff.mpr ⟨a, n, hclears, hsource⟩)]
      simp [Op.spell]
    | none =>
      have hkept : Op.fuse? (body.lower (base + before.size + 1)) ≠ some .clear := by
        intro hfuse
        obtain ⟨a, n, hclears, hsource⟩ := tightBody.fuse?_eq_clear_iff.mp hfuse
        rw [hsource, afterClearing?_eq_some_iff.mpr ⟨a, n, hclears, rfl⟩] at hafter
        cases hafter
      rw [normalSource_of_none hafter, ihBody (base + before.size + 1),
        normalSource_of_ne_opening opening_ne_closing.symm, Op.flatMap_spell_enclose hkept]
      simp [Op.bracket]

/-- The array of a tight block is spelled as its normal text. -/
theorem Tight.spell_code {b : Block} (tight : b.Tight) : b.code.spell = normalSource b.source := by
  have hspell := tight.normalSource_append 0 []
  rw [List.append_nil] at hspell
  rw [hspell]
  simp [Code.spell, code, normalSource]

end Block

/-- Spelling out the array of an accepted program gives the program back, with
`[-]` for every loop that only adds or only subtracts. -/
theorem spell_compile {p : List UInt8} {code : Code} (accepted : (compile p).result = .ok code) :
    code.spell = normalSource p := by
  obtain ⟨b, tight, rfl, rfl⟩ := exists_block_of_compile accepted
  exact tight.spell_code

/-- Loops that only add or only subtract, beside and inside others. -/
theorem spell_compile_clears :
    (compile ",[>[+++]<[--]-]>>[<<][->>+<<]".toUTF8.data.toList).result =
      .ok #[.run .read 1, .jumpZero 7, .run .right 1, .clear, .run .left 1, .clear, .run .dec 1,
        .jumpNonzero 1, .run .right 2, .scan (-2), .transfer 2] ∧
    normalSource ",[>[+++]<[--]-]>>[<<][->>+<<]".toUTF8.data.toList =
      ",[>[-]<[-]-]>>[<<][->>+<<]".toUTF8.data.toList := by
  have accepted : (compile ",[>[+++]<[--]-]>>[<<][->>+<<]".toUTF8.data.toList).result =
      .ok #[.run .read 1, .jumpZero 7, .run .right 1, .clear, .run .left 1, .clear, .run .dec 1,
        .jumpNonzero 1, .run .right 2, .scan (-2), .transfer 2] := by decide +kernel
  refine ⟨accepted, ?_⟩
  rw [← spell_compile accepted]
  decide

end Brainfuck
