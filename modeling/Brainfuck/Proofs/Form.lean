import Brainfuck.Proofs.Draft
import Mathlib.Data.List.Chain

/-!
# The form of compiled arrays

Every array that comes out of the compiler is canonical. A canonical array is
described by indices, and a compiled one is made of pieces, so the description
is first given for a piece that starts at any index and then shown to survive
the two ways in which pieces are put together:

* **jumps** — `Paired`: every jump of a piece is an end of a loop in it. Kept by
  `Paired.append` and `Paired.enclose`;
* **loops** — `Linked`: the loops of a piece are nested as well, and none of them
  is around an idiom. Kept by `Linked.append` and `Linked.enclose`;
* **single operations** — `Op.Proper`: no empty run, no standstill, no trap;
* **neighbours** — `Op.Apart`, along the whole piece.

The main result is `compile_canonical`.
-/

namespace Brainfuck

namespace Op

/-- The operations strictly between two places of a piece. -/
def inside (ops : List Op) (i j : Nat) : List Op := (ops.drop (i + 1)).take (j - (i + 1))

/-- The jumps at places `i` and `j` of a piece that starts at index `base` are
the two ends of a loop. -/
structure LoopAt (base : Nat) (ops : List Op) (i j : Nat) : Prop where
  lt : i < j
  opens : ops[i]? = some (.jumpZero (base + j))
  closes : ops[j]? = some (.jumpNonzero (base + i))

/-- In a whole array, the loops of the piece are the pairs of the array. -/
theorem loopAt_zero_iff {ops : List Op} {i j : Nat} :
    LoopAt 0 ops i j ↔ Code.Pair ops.toArray i j := by
  constructor
  · intro h
    refine ⟨h.lt, ?_, ?_⟩
    · simpa using h.opens
    · simpa using h.closes
  · intro h
    refine ⟨h.lt, ?_, ?_⟩
    · simpa using h.opens
    · simpa using h.closes

/-- The jumps of a piece are the ends of nested loops that are no idioms. -/
structure Linked (base : Nat) (ops : List Op) : Prop where
  opening : ∀ i t, ops[i]? = some (.jumpZero t) → ∃ j, t = base + j ∧ LoopAt base ops i j
  closing : ∀ j t, ops[j]? = some (.jumpNonzero t) → ∃ i, t = base + i ∧ LoopAt base ops i j
  nested : ∀ i j i' j', LoopAt base ops i j → LoopAt base ops i' j' → i < i' → i' < j → j' < j
  noIdiom : ∀ i j op, LoopAt base ops i j → ¬ Idiom (inside ops i j) op

/-- Whether the operation jumps. -/
def isJump : Op → Bool
  | .jumpZero _ | .jumpNonzero _ => true
  | _ => false

/-- Every jump of a piece is an end of a loop in the piece. -/
def Paired (base : Nat) (ops : List Op) : Prop :=
  ∀ (k : Nat) op, ops[k]? = some op → op.isJump = true →
    ∃ i j, LoopAt base ops i j ∧ (k = i ∨ k = j)

theorem Paired.of_not_isJump {base : Nat} {ops : List Op}
    (straight : ∀ op ∈ ops, op.isJump = false) : Paired base ops := by
  intro k op h hjump
  rw [straight op (List.mem_of_getElem? h)] at hjump
  cases hjump

theorem Paired.opening {base : Nat} {ops : List Op} (paired : Paired base ops) {i t : Nat}
    (h : ops[i]? = some (.jumpZero t)) : ∃ j, t = base + j ∧ LoopAt base ops i j := by
  obtain ⟨i', j, hloop, rfl | rfl⟩ := paired i _ h rfl
  · have hsame := hloop.opens
    rw [h] at hsame
    cases hsame
    exact ⟨j, rfl, hloop⟩
  · have hother := hloop.closes
    rw [h] at hother
    cases hother

theorem Paired.closing {base : Nat} {ops : List Op} (paired : Paired base ops) {j t : Nat}
    (h : ops[j]? = some (.jumpNonzero t)) : ∃ i, t = base + i ∧ LoopAt base ops i j := by
  obtain ⟨i, j', hloop, rfl | rfl⟩ := paired j _ h rfl
  · have hother := hloop.opens
    rw [h] at hother
    cases hother
  · have hsame := hloop.closes
    rw [h] at hsame
    cases hsame
    exact ⟨i, rfl, hloop⟩

theorem Linked.paired {base : Nat} {ops : List Op} (linked : Linked base ops) :
    Paired base ops := by
  intro k op h hjump
  cases op with
  | jumpZero t =>
    obtain ⟨j, -, hloop⟩ := linked.opening k t h
    exact ⟨k, j, hloop, .inl rfl⟩
  | jumpNonzero t =>
    obtain ⟨i, -, hloop⟩ := linked.closing k t h
    exact ⟨i, k, hloop, .inr rfl⟩
  | _ => cases hjump

theorem Linked.of_not_isJump {base : Nat} {ops : List Op}
    (straight : ∀ op ∈ ops, op.isJump = false) : Linked base ops := by
  have noOpening : ∀ i t : Nat, ops[i]? ≠ some (jumpZero t) := by
    intro i t h
    cases straight _ (List.mem_of_getElem? h)
  have noClosing : ∀ i t : Nat, ops[i]? ≠ some (jumpNonzero t) := by
    intro i t h
    cases straight _ (List.mem_of_getElem? h)
  refine ⟨?_, ?_, ?_, ?_⟩
  · intro i t h
    exact absurd h (noOpening i t)
  · intro j t h
    exact absurd h (noClosing j t)
  · intro i j i' j' h
    exact absurd h.opens (noOpening i _)
  · intro i j op h
    exact absurd h.opens (noOpening i _)

/-! ## Two pieces in a row -/

section Append

variable {base : Nat} {front back : List Op} {i j : Nat} {op : Op}

private theorem getElem?_front (h : front[i]? = some op) : (front ++ back)[i]? = some op := by
  obtain ⟨hi, -⟩ := List.getElem?_eq_some_iff.mp h
  rw [List.getElem?_append_left hi, h]

private theorem getElem?_back (h : back[i]? = some op) :
    (front ++ back)[front.length + i]? = some op := by
  rw [List.getElem?_append_right (Nat.le_add_right ..), Nat.add_sub_cancel_left, h]

private theorem front_or_back (h : (front ++ back)[i]? = some op) :
    front[i]? = some op ∨ ∃ k, i = front.length + k ∧ back[k]? = some op := by
  by_cases hi : i < front.length
  · rw [List.getElem?_append_left hi] at h
    exact .inl h
  · rw [List.getElem?_append_right (Nat.le_of_not_lt hi)] at h
    exact .inr ⟨i - front.length, by omega, h⟩

theorem LoopAt.append_left (h : LoopAt base front i j) : LoopAt base (front ++ back) i j :=
  ⟨h.lt, getElem?_front h.opens, getElem?_front h.closes⟩

theorem LoopAt.append_right (h : LoopAt (base + front.length) back i j) :
    LoopAt base (front ++ back) (front.length + i) (front.length + j) := by
  refine ⟨Nat.add_lt_add_left h.lt _, ?_, ?_⟩
  · rw [← Nat.add_assoc]
    exact getElem?_back h.opens
  · rw [← Nat.add_assoc]
    exact getElem?_back h.closes

/-- A loop of two linked pieces is a loop of one of them. -/
theorem LoopAt.of_append (hfront : Linked base front)
    (hback : Linked (base + front.length) back) (h : LoopAt base (front ++ back) i j) :
    LoopAt base front i j ∨ ∃ i' j', i = front.length + i' ∧ j = front.length + j' ∧
      LoopAt (base + front.length) back i' j' := by
  rcases front_or_back h.opens with hopens | ⟨i', rfl, hopens⟩
  · obtain ⟨k, hk, hloop⟩ := hfront.opening i _ hopens
    have : j = k := by omega
    rw [this]
    exact .inl hloop
  · obtain ⟨k, hk, hloop⟩ := hback.opening i' _ hopens
    exact .inr ⟨i', k, rfl, by omega, hloop⟩

theorem LoopAt.lt_length (h : LoopAt base front i j) : j < front.length :=
  (List.getElem?_eq_some_iff.mp h.closes).1

private theorem inside_front (h : j < front.length) (hij : i < j) :
    inside (front ++ back) i j = inside front i j := by
  unfold inside
  rw [List.drop_append_of_le_length (by omega), List.take_append_of_le_length]
  rw [List.length_drop]
  omega

private theorem inside_back :
    inside (front ++ back) (front.length + i) (front.length + j) = inside back i j := by
  unfold inside
  rw [Nat.add_assoc, List.drop_length_add_append, Nat.add_sub_add_left]

theorem Paired.append (hfront : Paired base front)
    (hback : Paired (base + front.length) back) : Paired base (front ++ back) := by
  intro k op h hjump
  rcases front_or_back h with hk | ⟨l, rfl, hl⟩
  · obtain ⟨i, j, hloop, hend⟩ := hfront k op hk hjump
    exact ⟨i, j, hloop.append_left, hend⟩
  · obtain ⟨i, j, hloop, hend⟩ := hback l op hl hjump
    exact ⟨front.length + i, front.length + j, hloop.append_right, by omega⟩

/-- Pieces in a row are linked if each of them is. -/
theorem Linked.append (hfront : Linked base front)
    (hback : Linked (base + front.length) back) : Linked base (front ++ back) := by
  have paired := hfront.paired.append hback.paired
  refine ⟨?_, ?_, ?_, ?_⟩
  · intro i t h
    exact paired.opening h
  · intro j t h
    exact paired.closing h
  · intro i j i' j' h h' hlt hin
    rcases h.of_append hfront hback with hi | ⟨k, l, rfl, rfl, hi⟩
    · rcases h'.of_append hfront hback with hi' | ⟨k', l', rfl, rfl, hi'⟩
      · exact hfront.nested i j i' j' hi hi' hlt hin
      · -- the outer loop ends before the second piece
        have := hi.lt_length
        omega
    · rcases h'.of_append hfront hback with hi' | ⟨k', l', rfl, rfl, hi'⟩
      · -- and the first piece before the outer loop starts
        have := hi'.lt_length
        have := hi'.lt
        omega
      · have := hback.nested k l k' l' hi hi' (by omega) (by omega)
        omega
  · intro i j op h
    rcases h.of_append hfront hback with hi | ⟨k, l, rfl, rfl, hi⟩
    · rw [inside_front hi.lt_length hi.lt]
      exact hfront.noIdiom i j op hi
    · rw [inside_back]
      exact hback.noIdiom k l op hi

end Append

/-! ## A loop around a piece -/

section Enclose

variable {base : Nat} {inner : List Op} {i j : Nat}

/-- A piece between the two jumps of a loop that starts at index `base`. -/
private def loop (base : Nat) (inner : List Op) : List Op :=
  .jumpZero (base + 1 + inner.length) :: inner ++ [.jumpNonzero base]

private theorem loop_cases {op : Op} (h : (loop base inner)[i]? = some op) :
    (i = 0 ∧ op = .jumpZero (base + 1 + inner.length)) ∨
      (∃ k, i = k + 1 ∧ inner[k]? = some op) ∨
      (i = inner.length + 1 ∧ op = .jumpNonzero base) := by
  unfold loop at h
  cases i with
  | zero =>
    cases h
    exact .inl ⟨rfl, rfl⟩
  | succ k =>
    rw [List.cons_append, List.getElem?_cons_succ] at h
    rcases front_or_back h with hk | ⟨l, rfl, hl⟩
    · exact .inr (.inl ⟨k, rfl, hk⟩)
    · cases l with
      | zero =>
        cases hl
        exact .inr (.inr ⟨rfl, rfl⟩)
      | succ l => cases hl

private theorem getElem?_loop_succ {op : Op} (h : inner[i]? = some op) :
    (loop base inner)[i + 1]? = some op := by
  rw [loop, List.cons_append, List.getElem?_cons_succ]
  exact getElem?_front h

private theorem loopAt_ends : LoopAt base (loop base inner) 0 (inner.length + 1) := by
  refine ⟨Nat.succ_pos _, ?_, ?_⟩
  · simp [loop, Nat.add_comm, Nat.add_left_comm]
  · simp [loop]

private theorem LoopAt.succ (h : LoopAt (base + 1) inner i j) :
    LoopAt base (loop base inner) (i + 1) (j + 1) := by
  refine ⟨Nat.succ_lt_succ h.lt, ?_, ?_⟩
  · rw [← Nat.add_assoc, Nat.add_right_comm]
    exact getElem?_loop_succ h.opens
  · rw [← Nat.add_assoc, Nat.add_right_comm]
    exact getElem?_loop_succ h.closes

private theorem LoopAt.of_loop (linked : Linked (base + 1) inner)
    (h : LoopAt base (loop base inner) i j) :
    (i = 0 ∧ j = inner.length + 1) ∨
      ∃ i' j', i = i' + 1 ∧ j = j' + 1 ∧ LoopAt (base + 1) inner i' j' := by
  rcases loop_cases h.opens with ⟨rfl, heq⟩ | ⟨k, rfl, hk⟩ | ⟨-, heq⟩
  · injection heq with heq
    exact .inl ⟨rfl, by omega⟩
  · obtain ⟨l, hl, hloop⟩ := linked.opening k _ hk
    exact .inr ⟨k, l, rfl, by omega, hloop⟩
  · cases heq

private theorem inside_loop : inside (loop base inner) 0 (inner.length + 1) = inner := by
  simp [inside, loop]

private theorem inside_loop_succ (h : j < inner.length) (hij : i < j) :
    inside (loop base inner) (i + 1) (j + 1) = inside inner i j := by
  have hshift : inside (loop base inner) (i + 1) (j + 1) =
      inside (inner ++ [.jumpNonzero base]) i j := by
    simp [inside, loop]
  rw [hshift, inside_front h hij]

private theorem Paired.loop (paired : Paired (base + 1) inner) :
    Paired base (Op.loop base inner) := by
  intro k op h hjump
  rcases loop_cases h with ⟨rfl, -⟩ | ⟨l, rfl, hl⟩ | ⟨rfl, -⟩
  · exact ⟨0, inner.length + 1, loopAt_ends, .inl rfl⟩
  · obtain ⟨i, j, hloop, hend⟩ := paired l op hl hjump
    exact ⟨i + 1, j + 1, hloop.succ, by omega⟩
  · exact ⟨0, inner.length + 1, loopAt_ends, .inr rfl⟩

/-- A loop around a linked piece that is no idiom is linked. -/
private theorem Linked.loop (linked : Linked (base + 1) inner)
    (kept : ∀ op, ¬ Idiom inner op) : Linked base (Op.loop base inner) := by
  have paired := linked.paired.loop
  refine ⟨?_, ?_, ?_, ?_⟩
  · intro i t h
    exact paired.opening h
  · intro j t h
    exact paired.closing h
  · intro i j i' j' h h' hlt hin
    -- the new loop starts first, so it can only be the outer one
    rcases h'.of_loop linked with ⟨rfl, -⟩ | ⟨k', l', rfl, rfl, hi'⟩
    · omega
    · rcases h.of_loop linked with ⟨rfl, rfl⟩ | ⟨k, l, rfl, rfl, hi⟩
      · have := hi'.lt_length
        omega
      · have := linked.nested k l k' l' hi hi' (by omega) (by omega)
        omega
  · intro i j op h
    rcases h.of_loop linked with ⟨rfl, rfl⟩ | ⟨k, l, rfl, rfl, hi⟩
    · rw [inside_loop]
      exact kept op
    · rw [inside_loop_succ hi.lt_length hi.lt]
      exact linked.noIdiom k l op hi

theorem Idiom.not_isJump {ops : List Op} {op : Op} (h : Idiom ops op) : op.isJump = false := by
  cases h <;> rfl

/-- Enclosing a linked piece gives a linked one, if `fuse?` misses no idiom. -/
theorem Linked.enclose (linked : Linked (base + 1) inner)
    (short : ∀ a n, .run a n ∈ inner → n ≤ offsetMax) : Linked base (Op.enclose base inner) := by
  cases hf : fuse? inner with
  | none =>
    rw [enclose_of_none hf]
    apply linked.loop
    intro op hidiom
    rw [fuse?_of_idiom hidiom short] at hf
    cases hf
  | some op =>
    rw [enclose_of_some hf]
    apply Linked.of_not_isJump
    intro o ho
    cases List.mem_singleton.mp ho
    exact (idiom_of_fuse? hf).not_isJump

/-- Whether a loop is fused or not, it leaves no jump without partner. -/
theorem Paired.enclose (paired : Paired (base + 1) inner) : Paired base (Op.enclose base inner) := by
  cases hf : fuse? inner with
  | none =>
    rw [enclose_of_none hf]
    exact paired.loop
  | some op =>
    rw [enclose_of_some hf]
    apply Paired.of_not_isJump
    intro o ho
    cases List.mem_singleton.mp ho
    exact (idiom_of_fuse? hf).not_isJump

end Enclose

/-! ## Single operations and neighbours -/

/-- The operation has something to do and knows what. -/
def Proper : Op → Prop
  | .run _ n => 0 < n
  | .scan stride => stride ≠ 0
  | .transfer offset => offset ≠ 0
  | .trap => False
  | _ => True

/-- The two operations are no runs of the same action. -/
def Apart (x y : Op) : Prop := ∀ a n k, x = .run a n → y ≠ .run a k

theorem Apart.of_not_isRun_left {x : Op} (h : x.isRun = false) (y : Op) : Apart x y := by
  rintro a n k rfl
  cases h

theorem Apart.of_not_isRun_right (x : Op) {y : Op} (h : y.isRun = false) : Apart x y := by
  rintro a n k - rfl
  cases h

/-- The operation for an idiom with proper runs is proper. -/
theorem Idiom.proper {ops : List Op} {op : Op} (h : Idiom ops op)
    (runs : ∀ o ∈ ops, o.Proper) : op.Proper := by
  cases h with
  | adding n => trivial
  | subtracting n => trivial
  | scanRight n =>
    have hn : 0 < n := runs (.run .right n) (by simp)
    show (n : Int) ≠ 0
    omega
  | scanLeft n =>
    have hn : 0 < n := runs (.run .left n) (by simp)
    show -(n : Int) ≠ 0
    omega
  | giveRight k =>
    have hk : 0 < k := runs (.run .right k) (by simp)
    show (k : Int) ≠ 0
    omega
  | giveLeft k =>
    have hk : 0 < k := runs (.run .left k) (by simp)
    show -(k : Int) ≠ 0
    omega

theorem proper_of_mem_enclose {base : Nat} {inner : List Op} (proper : ∀ o ∈ inner, o.Proper) :
    ∀ o ∈ enclose base inner, o.Proper := by
  intro o ho
  cases hf : fuse? inner with
  | none =>
    rw [enclose_of_none hf, List.cons_append, List.mem_cons, List.mem_append,
      List.mem_singleton] at ho
    rcases ho with rfl | ho | rfl
    · trivial
    · exact proper o ho
    · trivial
  | some op =>
    rw [enclose_of_some hf, List.mem_singleton] at ho
    rw [ho]
    exact (idiom_of_fuse? hf).proper proper

/-- Jumps keep what is in a loop apart from what is outside. -/
theorem isChain_enclose {base : Nat} {inner : List Op} (chain : inner.IsChain Apart) :
    (enclose base inner).IsChain Apart := by
  cases hf : fuse? inner with
  | none =>
    rw [enclose_of_none hf, List.cons_append, List.isChain_cons]
    refine ⟨?_, ?_⟩
    · intro y _
      exact .of_not_isRun_left rfl y
    · rw [List.isChain_append]
      refine ⟨chain, .singleton _, ?_⟩
      intro x _ y hy
      cases hy
      exact .of_not_isRun_right x rfl
  | some op =>
    rw [enclose_of_some hf]
    exact .singleton op

theorem not_isRun_of_head?_enclose {base : Nat} {inner : List Op} {op : Op}
    (h : op ∈ (enclose base inner).head?) : op.isRun = false := by
  cases hf : fuse? inner with
  | none =>
    rw [enclose_of_none hf] at h
    cases h
    rfl
  | some o =>
    rw [enclose_of_some hf] at h
    cases h
    exact (idiom_of_fuse? hf).not_isRun

theorem not_isRun_of_getLast?_enclose {base : Nat} {inner : List Op} {op : Op}
    (h : op ∈ (enclose base inner).getLast?) : op.isRun = false := by
  cases hf : fuse? inner with
  | none =>
    rw [enclose_of_none hf, List.getLast?_concat] at h
    cases h
    rfl
  | some o =>
    rw [enclose_of_some hf] at h
    cases h
    exact (idiom_of_fuse? hf).not_isRun

end Op

/-! ## Blocks -/

namespace Block

theorem linked_lower {base : Nat} {b : Block} (short : b.source.length ≤ offsetMax) :
    Op.Linked base (b.lower base) := by
  induction b generalizing base with
  | empty => exact .of_not_isJump (by simp [lower])
  | act before a n ih =>
    rw [length_source_act] at short
    exact (ih (by omega)).append (.of_not_isJump (by simp [Op.isJump]))
  | loop before body ihBefore ihBody =>
    rw [length_source_loop] at short
    have hbody : ∀ a n, .run a n ∈ body.lower (base + before.size + 1) → n ≤ offsetMax := by
      intro a n h
      have := le_length_source_of_run_mem h
      omega
    rw [lower_loop]
    apply (ihBefore (by omega)).append
    rw [length_lower]
    exact (ihBody (by omega)).enclose hbody

/-- The jumps of a block are paired, however long its text is. -/
theorem paired_lower (base : Nat) (b : Block) : Op.Paired base (b.lower base) := by
  induction b generalizing base with
  | empty => exact .of_not_isJump (by simp [lower])
  | act before a n ih => exact (ih base).append (.of_not_isJump (by simp [Op.isJump]))
  | loop before body ihBefore ihBody =>
    rw [lower_loop]
    apply (ihBefore base).append
    rw [length_lower]
    exact (ihBody _).enclose

theorem Tight.proper_of_mem_lower {base : Nat} {b : Block} (tight : b.Tight) :
    ∀ o ∈ b.lower base, o.Proper := by
  induction tight generalizing base with
  | empty => simp [lower]
  | act _ _ positive ih =>
    intro o ho
    rcases List.mem_append.mp ho with ho | ho
    · exact ih o ho
    · cases List.mem_singleton.mp ho
      exact positive
  | loop _ _ ihBefore ihBody =>
    intro o ho
    rw [lower_loop] at ho
    rcases List.mem_append.mp ho with ho | ho
    · exact ihBefore o ho
    · exact Op.proper_of_mem_enclose ihBody o ho

/-- If a block ends with a run, the run is its last operation. -/
theorem last?_of_getLast?_lower {base : Nat} {b : Block} {a : Action} {n : Nat}
    (h : .run a n ∈ (b.lower base).getLast?) : b.last? = some a := by
  cases b with
  | empty => cases h
  | act before a' n' =>
    rw [lower, List.getLast?_concat] at h
    cases h
    rfl
  | loop before body =>
    obtain ⟨o, ho, -⟩ := Op.exists_not_isRun_mem_enclose
      (base + before.size) (body.lower (base + before.size + 1))
    rw [lower_loop, List.getLast?_append_of_ne_nil _ (List.ne_nil_of_mem ho)] at h
    cases Op.not_isRun_of_getLast?_enclose h

theorem Tight.isChain_lower {base : Nat} {b : Block} (tight : b.Tight) :
    (b.lower base).IsChain Op.Apart := by
  induction tight generalizing base with
  | empty => exact .nil
  | @act before a n _ distinct _ ih =>
    rw [lower, List.isChain_append]
    refine ⟨ih, .singleton _, ?_⟩
    -- a run that meets another one of its action would be the end of the block
    intro x hx y hy a' n' k hrun hrun'
    cases hy
    cases hrun'
    rw [hrun] at hx
    exact distinct (last?_of_getLast?_lower hx)
  | loop _ _ ihBefore ihBody =>
    rw [lower_loop, List.isChain_append]
    refine ⟨ihBefore, Op.isChain_enclose ihBody, ?_⟩
    intro x _ y hy
    exact .of_not_isRun_right x (Op.not_isRun_of_head?_enclose hy)

/-- The array of a tight block is canonical. -/
theorem Tight.canonical {b : Block} (tight : b.Tight) (short : b.source.length ≤ offsetMax) :
    b.code.Canonical := by
  show Code.Canonical (b.lower 0).toArray
  have linked : Op.Linked 0 (b.lower 0) := linked_lower short
  have proper {i : Nat} {op : Op} (h : (b.lower 0).toArray[i]? = some op) : op.Proper := by
    rw [List.getElem?_toArray] at h
    exact tight.proper_of_mem_lower op (List.mem_of_getElem? h)
  refine ⟨?_, ?_, ?_, ?_, ?_, ?_, ?_, ?_, ?_⟩
  · intro i j h
    rw [List.getElem?_toArray] at h
    obtain ⟨k, hk, hloop⟩ := linked.opening i j h
    have : j = k := by omega
    rw [this]
    exact Op.loopAt_zero_iff.mp hloop
  · intro i j h
    rw [List.getElem?_toArray] at h
    obtain ⟨k, hk, hloop⟩ := linked.closing j i h
    have : i = k := by omega
    rw [this]
    exact Op.loopAt_zero_iff.mp hloop
  · intro i j i' j' h h'
    exact linked.nested i j i' j' (Op.loopAt_zero_iff.mpr h) (Op.loopAt_zero_iff.mpr h')
  · intro i a n h
    exact proper h
  · intro i a n k h h'
    rw [List.getElem?_toArray] at h h'
    obtain ⟨_, hrun⟩ := List.getElem?_eq_some_iff.mp h
    obtain ⟨hi, hrun'⟩ := List.getElem?_eq_some_iff.mp h'
    exact tight.isChain_lower.getElem i hi a n k hrun hrun'
  · intro i d h
    exact proper h
  · intro i d h
    exact proper h
  · intro i h
    exact proper h
  · intro i j op h
    have hbetween : Code.between (b.lower 0).toArray i j = Op.inside (b.lower 0) i j := by
      simp [Code.between, Op.inside, List.extract_eq_take_drop]
    rw [hbetween]
    exact linked.noIdiom i j op (Op.loopAt_zero_iff.mpr h)

end Block

theorem Code.Pair.lt_size {code : Code} {i j : Nat} (pair : code.Pair i j) : j < code.size :=
  (Array.getElem?_eq_some_iff.mp pair.closes).1

/-- An operation that does not jump is at neither end of a loop. -/
theorem Code.Pair.ne_of_not_isJump {code : Code} {i j k : Nat} {op : Op} (pair : code.Pair i j)
    (h : code[k]? = some op) (straight : op.isJump = false) : i ≠ k ∧ j ≠ k := by
  refine ⟨?_, ?_⟩
  · rintro rfl
    rw [pair.opens] at h
    cases h
    cases straight
  · rintro rfl
    rw [pair.closes] at h
    cases h
    cases straight

/-- Two loops of a canonical array are nested or apart from each other. -/
theorem Code.Canonical.nested_or_disjoint {code : Code} (canonical : code.Canonical)
    {i j i' j' : Nat} (h : code.Pair i j) (h' : code.Pair i' j') :
    (i ≤ i' ∧ j' ≤ j) ∨ (i' ≤ i ∧ j ≤ j') ∨ j < i' ∨ j' < i := by
  -- an opening jump is not a closing one, so no end of a loop is a start
  have hne : i' ≠ j := by
    rintro rfl
    have := h'.opens
    rw [h.closes] at this
    cases this
  have hne' : i ≠ j' := by
    rintro rfl
    have := h.opens
    rw [h'.closes] at this
    cases this
  have hin := canonical.nested i j i' j' h h'
  have hin' := canonical.nested i' j' i j h' h
  have hlt := h.lt
  have hlt' := h'.lt
  by_cases heq : i = i'
  · -- an opening jump has one target
    subst heq
    have hsame := h.opens
    rw [h'.opens] at hsame
    cases hsame
    omega
  · omega

/-- Two loops of a canonical array are the same, one strictly inside the other,
or apart from each other. -/
theorem Code.Canonical.same_or_nested_or_disjoint {code : Code} (canonical : code.Canonical)
    {i j i' j' : Nat} (h : code.Pair i j) (h' : code.Pair i' j') :
    (i' = i ∧ j' = j) ∨ (i < i' ∧ j' < j) ∨ (i' < i ∧ j < j') ∨ j < i' ∨ j' < i := by
  by_cases hopen : i' = i
  · subst hopen
    have hsame := h.opens
    rw [h'.opens] at hsame
    cases hsame
    exact .inl ⟨rfl, rfl⟩
  · by_cases hclose : j' = j
    · subst hclose
      have hsame := h.closes
      rw [h'.closes] at hsame
      cases hsame
      exact .inl ⟨rfl, rfl⟩
    · have := canonical.nested_or_disjoint h h'
      omega

/-- The array of every accepted program is canonical, and its loops are nested
or apart from each other. -/
theorem compile_canonical {p : List UInt8} {code : Code} (short : p.length ≤ offsetMax)
    (accepted : (compile p).result = .ok code) :
    code.Canonical ∧ ∀ i j i' j', code.Pair i j → code.Pair i' j' →
      (i ≤ i' ∧ j' ≤ j) ∨ (i' ≤ i ∧ j ≤ j') ∨ j < i' ∨ j' < i := by
  obtain ⟨b, tight, rfl, rfl⟩ := exists_block_of_compile accepted
  have canonical := tight.canonical short
  refine ⟨canonical, ?_⟩
  intro i j i' j' h h'
  exact canonical.nested_or_disjoint h h'

/-- Fused loops inside a loop that stays. -/
theorem compile_canonical_nested :
    "+[>+[-]<[->+<]>[<]-]".toUTF8.data.toList.length ≤ offsetMax ∧
    (compile "+[>+[-]<[->+<]>[<]-]".toUTF8.data.toList).result =
      .ok #[.run .inc 1, .jumpZero 10, .run .right 1, .run .inc 1, .clear, .run .left 1,
        .transfer 1, .run .right 1, .scan (-1), .run .dec 1, .jumpNonzero 1] ∧
    Code.Canonical #[.run .inc 1, .jumpZero 10, .run .right 1, .run .inc 1, .clear,
      .run .left 1, .transfer 1, .run .right 1, .scan (-1), .run .dec 1, .jumpNonzero 1] := by
  have short : "+[>+[-]<[->+<]>[<]-]".toUTF8.data.toList.length ≤ offsetMax := by decide
  have accepted : (compile "+[>+[-]<[->+<]>[<]-]".toUTF8.data.toList).result =
      .ok #[.run .inc 1, .jumpZero 10, .run .right 1, .run .inc 1, .clear, .run .left 1,
        .transfer 1, .run .right 1, .scan (-1), .run .dec 1, .jumpNonzero 1] := by decide +kernel
  exact ⟨short, accepted, (compile_canonical short accepted).1⟩

end Brainfuck
