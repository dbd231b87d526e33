import Brainfuck.Proofs.Form
import Brainfuck.Proofs.Spelling

/-!
# Canonical arrays are compiled ones

The compiler makes canonical arrays, and it makes all of them: spelling out a
canonical array gives a program that compiles to this very array. A canonical
array is flat, with absolute targets in its jumps, so the work is to find the
block in it:

* **pieces** — a stretch of the array is `Closed` if no loop crosses its ends.
  The whole array is, and so are what stands in front of a loop and what is
  inside of it (`Canonical.closed_front`, `Canonical.closed_body`);
* **single operations** — one that is neither a run nor a jump is what a loop
  around a certain body is fused to (`Op.exists_body`);
* **blocks** — a closed piece has the operations of a tight block, by induction
  on its length from the last operation back (`Canonical.exists_fills`).

The main result is `compile_spell_of_canonical`.
-/

namespace Brainfuck

/-! ## Pieces of an array -/

namespace Code

variable {code : Code}

/-- The operations from index `lo` up to, but without, index `hi`. -/
def piece (code : Code) (lo hi : Nat) : List Op := (code.extract lo hi).toList

theorem piece_self (code : Code) (lo : Nat) : code.piece lo lo = [] := by
  simp [piece]

theorem piece_all (code : Code) : code.piece 0 code.size = code.toList := by
  simp [piece]

theorem length_piece {lo hi : Nat} (h : hi ≤ code.size) : (code.piece lo hi).length = hi - lo := by
  rw [piece, Array.length_toList, Array.size_extract, Nat.min_eq_left h]

theorem piece_succ {lo k : Nat} {op : Op} (h : code[k]? = some op) (hlo : lo ≤ k) :
    code.piece lo (k + 1) = code.piece lo k ++ [op] := by
  obtain ⟨hk, rfl⟩ := Array.getElem?_eq_some_iff.mp h
  rw [piece, Array.extract_succ_right (Nat.lt_succ_of_le hlo) hk, Array.toList_push, piece]

theorem piece_append {lo mid hi : Nat} (h : lo ≤ mid) (h' : mid ≤ hi) :
    code.piece lo hi = code.piece lo mid ++ code.piece mid hi := by
  rw [piece, piece, piece, ← Array.toList_append, Array.extract_append_extract,
    Nat.min_eq_left h, Nat.max_eq_right h']

/-- A piece that ends with a loop is what stands in front of the loop, and the
loop. -/
theorem piece_loop {lo i j : Nat} (pair : code.Pair i j) (hlo : lo ≤ i) :
    code.piece lo (j + 1) =
      code.piece lo i ++ (.jumpZero j :: code.piece (i + 1) j ++ [.jumpNonzero i]) := by
  have hlt := pair.lt
  have hopens := piece_succ pair.opens (Nat.le_refl i)
  rw [piece_self] at hopens
  rw [piece_succ pair.closes (Nat.le_trans hlo (Nat.le_of_lt hlt)),
    piece_append hlo (Nat.le_of_lt hlt), piece_append (Nat.le_succ i) hlt, hopens]
  simp

/-- The last operation of a piece. -/
theorem of_getLast?_piece {lo k : Nat} {op : Op} (hk : k ≤ code.size)
    (h : (code.piece lo k).getLast? = some op) : ∃ l, k = l + 1 ∧ code[l]? = some op := by
  cases k with
  | zero => simp [piece] at h
  | succ l =>
    refine ⟨l, rfl, ?_⟩
    have hop : code[l]? = some code[l] := Array.getElem?_eq_getElem hk
    by_cases hlo : lo ≤ l
    · rw [piece_succ hop hlo, List.getLast?_concat] at h
      rw [hop, h]
    · have hnil : code.piece lo (l + 1) = [] := by
        apply List.eq_nil_of_length_eq_zero
        rw [length_piece hk]
        omega
      rw [hnil] at h
      cases h

/-! ## Closed pieces -/

/-- No loop crosses the ends of the piece from `lo` to `hi`. -/
structure Closed (code : Code) (lo hi : Nat) : Prop where
  le : lo ≤ hi
  bound : hi ≤ code.size
  loops : ∀ i j, code.Pair i j → (lo ≤ i ∧ i < hi ↔ lo ≤ j ∧ j < hi)

theorem closed_all (code : Code) : code.Closed 0 code.size := by
  refine ⟨Nat.zero_le _, Nat.le_refl _, ?_⟩
  intro i j pair
  have := pair.lt
  have := pair.lt_size
  omega

/-- An operation that does not jump can be cut off. -/
theorem Closed.of_succ {lo k : Nat} {op : Op} (closed : code.Closed lo (k + 1)) (hlo : lo ≤ k)
    (h : code[k]? = some op) (straight : op.isJump = false) : code.Closed lo k := by
  refine ⟨hlo, Nat.le_of_succ_le closed.bound, ?_⟩
  intro i j pair
  have hloops := closed.loops i j pair
  have hends := pair.ne_of_not_isJump h straight
  omega

namespace Canonical

variable {lo i j : Nat}

/-- What stands in front of the loop at the end of a closed piece is closed. -/
theorem closed_front (canonical : code.Canonical) (closed : code.Closed lo (j + 1))
    (pair : code.Pair i j) (hlo : lo ≤ i) : code.Closed lo i := by
  have hlt := pair.lt
  refine ⟨hlo, Nat.le_trans (Nat.le_of_lt hlt) (Nat.le_of_lt pair.lt_size), ?_⟩
  intro i' j' pair'
  have hloops := closed.loops i' j' pair'
  have hlt' := pair'.lt
  have := canonical.same_or_nested_or_disjoint pair pair'
  omega

/-- What is inside of a loop is closed. -/
theorem closed_body (canonical : code.Canonical) (pair : code.Pair i j) :
    code.Closed (i + 1) j := by
  have hlt := pair.lt
  refine ⟨hlt, Nat.le_of_lt pair.lt_size, ?_⟩
  intro i' j' pair'
  have hlt' := pair'.lt
  have := canonical.same_or_nested_or_disjoint pair pair'
  omega

theorem proper (canonical : code.Canonical) {k : Nat} {op : Op} (h : code[k]? = some op) :
    op.Proper := by
  cases op with
  | run a n => exact canonical.positive k a n h
  | jumpZero target => trivial
  | jumpNonzero target => trivial
  | clear => trivial
  | scan stride => exact canonical.scans k stride h
  | transfer offset => exact canonical.transfers k offset h
  | trap => exact absurd h (canonical.noTrap k)

end Canonical

end Code

/-! ## Bodies for single operations -/

namespace Block

/-- If a block ends with a run, its last operation is that run. -/
theorem exists_getLast?_lower {b : Block} {a : Action} (h : b.last? = some a) (base : Nat) :
    ∃ n, (b.lower base).getLast? = some (.run a n) := by
  cases b with
  | empty => cases h
  | act before a' n =>
    cases h
    exact ⟨n, by rw [lower, List.getLast?_concat]⟩
  | loop before body => cases h

/-- A body that takes one from the cell, goes `n` cells there, gives one to the
cell and comes back. -/
def giving (there back : Action) (n : Nat) : Block :=
  (((Block.empty.act .dec 1).act there n).act .inc 1).act back n

theorem tight_giving {there back : Action} {n : Nat} (positive : 0 < n)
    (moves : there = .right ∧ back = .left ∨ there = .left ∧ back = .right) :
    (giving there back n).Tight := by
  refine .act (.act (.act (tight_run Nat.one_pos) ?_ positive) ?_ Nat.one_pos) ?_ positive
  · rcases moves with ⟨rfl, -⟩ | ⟨rfl, -⟩ <;> simp [last?]
  · rcases moves with ⟨rfl, -⟩ | ⟨rfl, -⟩ <;> simp [last?]
  · rcases moves with ⟨-, rfl⟩ | ⟨-, rfl⟩ <;> simp [last?]

end Block

namespace Op

/-- An offset that is not zero goes some way to the right or to the left. -/
theorem exists_pos_eq_or_neg {d : Int} (h : d ≠ 0) :
    ∃ n : Nat, 0 < n ∧ (d = n ∨ d = -n) :=
  ⟨d.natAbs, by omega, by omega⟩

/-- Every operation that is neither a run nor a jump is what some loop is fused
to, and its text is the text of that loop. -/
theorem exists_body {op : Op} (proper : op.Proper) (plain : op.isRun = false)
    (straight : op.isJump = false) (short : op.spell.length ≤ offsetMax) :
    ∃ body : Block, body.Tight ∧ fuse? (body.lower 0) = some op ∧
      bracket body.source = op.spell := by
  have build {body : Block} (tight : body.Tight) (idiom : Idiom (body.lower 0) op)
      (hspell : bracket body.source = op.spell) :
      ∃ body : Block, body.Tight ∧ fuse? (body.lower 0) = some op ∧
        bracket body.source = op.spell := by
    refine ⟨body, tight, fuse?_of_idiom idiom ?_, hspell⟩
    intro a n hrun
    have hle := Block.le_length_source_of_run_mem hrun
    rw [← hspell] at short
    simp [bracket] at short
    omega
  cases op with
  | run a n => cases plain
  | jumpZero target => cases straight
  | jumpNonzero target => cases straight
  | trap => cases proper
  | clear => exact build (Block.tight_run Nat.one_pos) (.subtracting 1) rfl
  | scan stride =>
    obtain ⟨n, positive, rfl | rfl⟩ := exists_pos_eq_or_neg proper
    · refine build (Block.tight_run positive) (.scanRight n) ?_
      simp [Block.source, spell, spellMoves_natCast]
    · refine build (Block.tight_run positive) (.scanLeft n) ?_
      simp [Block.source, spell, spellMoves_neg_natCast]
  | transfer offset =>
    obtain ⟨n, positive, rfl | rfl⟩ := exists_pos_eq_or_neg proper
    · refine build (Block.tight_giving positive (.inl ⟨rfl, rfl⟩)) (.giveRight n) ?_
      simp [Block.giving, Block.source, spell, spellMoves_natCast, spellMoves_neg_natCast]
    · refine build (Block.tight_giving positive (.inr ⟨rfl, rfl⟩)) (.giveLeft n) ?_
      simp [Block.giving, Block.source, spell, spellMoves_natCast, spellMoves_neg_natCast]

end Op

/-! ## The block of an array -/

namespace Code

variable {code : Code}

/-- The block has the operations of the piece from `lo` to `hi`, and the text
that the piece is spelled with. -/
structure Fills (code : Code) (b : Block) (lo hi : Nat) : Prop where
  tight : b.Tight
  ops : b.lower lo = code.piece lo hi
  text : b.source = (code.piece lo hi).flatMap Op.spell

namespace Fills

variable {before body : Block} {lo i j k : Nat}

theorem size_eq (fills : code.Fills before lo k) (bound : k ≤ code.size) :
    before.size = k - lo := by
  rw [← before.length_lower lo, fills.ops, length_piece bound]

/-- A run behind a piece: its neighbour is of another action, so the block stays
tight. -/
theorem act (fills : code.Fills before lo k) (canonical : code.Canonical) (hlo : lo ≤ k)
    {a : Action} {n : Nat} (h : code[k]? = some (.run a n)) :
    code.Fills (before.act a n) lo (k + 1) := by
  have hk : k ≤ code.size := Nat.le_of_lt (Array.getElem?_eq_some_iff.mp h).1
  have distinct : before.last? ≠ some a := by
    intro hlast
    obtain ⟨n', hend⟩ := Block.exists_getLast?_lower hlast lo
    rw [fills.ops] at hend
    obtain ⟨l, rfl, hl⟩ := of_getLast?_piece hk hend
    exact canonical.maximal l a n' n hl h
  refine ⟨.act fills.tight distinct (canonical.positive k a n h), ?_, ?_⟩
  · rw [Block.lower, fills.ops, piece_succ h hlo]
  · rw [Block.source, fills.text, piece_succ h hlo]
    simp [Op.spell]

/-- An operation that a loop is fused to, behind a piece. -/
theorem fused (fills : code.Fills before lo k) (hlo : lo ≤ k) {op : Op}
    (h : code[k]? = some op) (tight : body.Tight) (hfuse : Op.fuse? (body.lower 0) = some op)
    (hspell : Op.bracket body.source = op.spell) :
    code.Fills (before.loop body) lo (k + 1) := by
  refine ⟨.loop fills.tight tight, ?_, ?_⟩
  · rw [Block.lower_loop, Op.enclose_of_some ((Block.fuse?_lower _ body).trans hfuse), fills.ops,
      piece_succ h hlo]
  · rw [Block.source, hspell, fills.text, piece_succ h hlo]
    simp

/-- A loop that stays, behind a piece. Its jumps have the targets that the
compiler would give them. -/
theorem loop (front : code.Fills before lo i) (inner : code.Fills body (i + 1) j)
    (canonical : code.Canonical) (pair : code.Pair i j) (hlo : lo ≤ i) :
    code.Fills (before.loop body) lo (j + 1) := by
  have hlt := pair.lt
  have hbound := pair.lt_size
  have hslot : lo + before.size = i := by
    rw [front.size_eq (by omega)]
    omega
  have htarget : i + 1 + (code.piece (i + 1) j).length = j := by
    rw [length_piece (by omega)]
    omega
  have hkept : Op.fuse? (code.piece (i + 1) j) = none := by
    apply Op.fuse?_eq_none_of_not_idiom
    intro op
    exact canonical.noIdiom i j op pair
  refine ⟨.loop front.tight inner.tight, ?_, ?_⟩
  · rw [Block.lower_loop, hslot, inner.ops, Op.enclose_of_none hkept, htarget, front.ops,
      piece_loop pair hlo]
  · rw [Block.source, front.text, inner.text, piece_loop pair hlo]
    simp [Op.bracket, Op.spell]

end Fills

theorem length_spell_le_of_getElem? {k : Nat} {op : Op} (h : code[k]? = some op) :
    op.spell.length ≤ code.spell.length := by
  have hmem : op ∈ code.toList := Array.mem_toList_iff.mpr (Array.mem_of_getElem? h)
  obtain ⟨front, back, hsplit⟩ := List.append_of_mem hmem
  simp [Code.spell, hsplit]
  omega

namespace Canonical

/-- A closed piece of a canonical array is filled by a block. -/
theorem exists_fills (canonical : code.Canonical) (short : code.spell.length ≤ offsetMax)
    {lo hi : Nat} (closed : code.Closed lo hi) : ∃ b, code.Fills b lo hi := by
  induction hlen : hi - lo using Nat.strongRecOn generalizing lo hi with
  | ind len ih =>
    have hle := closed.le
    by_cases hempty : hi = lo
    · subst hempty
      exact ⟨.empty, .empty, by rw [piece_self, Block.lower], by rw [piece_self]; rfl⟩
    · -- the last operation says what the piece ends with
      obtain ⟨k, rfl⟩ : ∃ k, hi = k + 1 := ⟨hi - 1, by omega⟩
      have hlo : lo ≤ k := by omega
      obtain ⟨op, hop⟩ : ∃ op, code[k]? = some op := ⟨_, Array.getElem?_eq_getElem closed.bound⟩
      have cut (straight : op.isJump = false) : ∃ b, code.Fills b lo k :=
        ih (k - lo) (by omega) (closed.of_succ hlo hop straight) rfl
      have single (plain : op.isRun = false) (straight : op.isJump = false) :
          ∃ b, code.Fills b lo (k + 1) := by
        obtain ⟨before, hbefore⟩ := cut straight
        obtain ⟨body, tight, hfuse, hspell⟩ := Op.exists_body (canonical.proper hop) plain straight
          (Nat.le_trans (length_spell_le_of_getElem? hop) short)
        exact ⟨_, hbefore.fused hlo hop tight hfuse hspell⟩
      cases op with
      | run a n =>
        obtain ⟨before, hbefore⟩ := cut rfl
        exact ⟨_, hbefore.act canonical hlo hop⟩
      | clear => exact single rfl rfl
      | scan stride => exact single rfl rfl
      | transfer offset => exact single rfl rfl
      | trap => exact absurd hop (canonical.noTrap k)
      | jumpZero target =>
        -- its partner would be behind the end of the piece
        have pair := canonical.opening k target hop
        have := pair.lt
        have := closed.loops k target pair
        omega
      | jumpNonzero first =>
        have pair := canonical.closing first k hop
        have hlt := pair.lt
        have hinside := closed.loops first k pair
        have hfirst : lo ≤ first := by omega
        obtain ⟨before, hbefore⟩ := ih (first - lo) (by omega)
          (canonical.closed_front closed pair hfirst) rfl
        obtain ⟨body, hbody⟩ := ih (k - (first + 1)) (by omega) (canonical.closed_body pair) rfl
        exact ⟨_, hbefore.loop hbody canonical pair hfirst⟩

/-- A canonical array is the array of a tight block, whose text is what the
array is spelled with. -/
theorem exists_block (canonical : code.Canonical) (short : code.spell.length ≤ offsetMax) :
    ∃ b : Block, b.Tight ∧ b.code = code ∧ b.source = code.spell := by
  obtain ⟨b, fills⟩ := canonical.exists_fills short code.closed_all
  have hops := fills.ops
  have htext := fills.text
  rw [piece_all] at hops htext
  exact ⟨b, fills.tight, congrArg List.toArray hops, htext⟩

end Canonical

end Code

/-- A canonical array compiles from its own spelling, so the canonical arrays
are the ones that come out of the compiler. -/
theorem compile_spell_of_canonical (code : Code) :
    (code.Canonical → code.spell.length ≤ offsetMax →
      (compile code.spell).result = .ok code) ∧
    ((∃ p : List UInt8, p.length ≤ offsetMax ∧ (compile p).result = .ok code) ↔
      code.Canonical ∧ code.spell.length ≤ offsetMax) := by
  have compiles (canonical : code.Canonical) (short : code.spell.length ≤ offsetMax) :
      (compile code.spell).result = .ok code := by
    obtain ⟨b, tight, rfl, htext⟩ := canonical.exists_block short
    rw [← htext]
    exact tight.compile_source
  refine ⟨compiles, ?_, ?_⟩
  · rintro ⟨p, short, accepted⟩
    obtain ⟨b, tight, rfl, rfl⟩ := exists_block_of_compile accepted
    refine ⟨tight.canonical short, ?_⟩
    rw [tight.spell_code]
    exact Nat.le_trans (length_normalSource_le b.source) short
  · rintro ⟨canonical, short⟩
    exact ⟨code.spell, short, compiles canonical short⟩

/-- Every kind of fused loop inside a loop that stays. -/
theorem compile_spell_of_canonical_fused :
    Code.Canonical #[.run .inc 1, .jumpZero 5, .clear, .scan (-2), .transfer 3, .jumpNonzero 1] ∧
    (compile "+[[-][<<][->>>+<<<]]".toUTF8.data.toList).result =
      .ok #[.run .inc 1, .jumpZero 5, .clear, .scan (-2), .transfer 3, .jumpNonzero 1] := by
  have tight : ((Block.empty.act .inc 1).loop
      (((Block.empty.loop (Block.empty.act .dec 1)).loop (Block.empty.act .left 2)).loop
        (Block.giving .right .left 3))).Tight := by
    refine .loop (Block.tight_run Nat.one_pos) (.loop (.loop (.loop .empty ?_) ?_) ?_)
    · exact Block.tight_run Nat.one_pos
    · exact Block.tight_run Nat.two_pos
    · exact Block.tight_giving (Nat.succ_pos 2) (.inl ⟨rfl, rfl⟩)
  have canonical : Code.Canonical
      #[.run .inc 1, .jumpZero 5, .clear, .scan (-2), .transfer 3, .jumpNonzero 1] :=
    tight.canonical (by decide)
  exact ⟨canonical, (compile_spell_of_canonical _).1 canonical (by decide)⟩

end Brainfuck
