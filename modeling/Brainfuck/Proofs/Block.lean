import Brainfuck.Op.Canonical
import Brainfuck.Op.Idiom
import Brainfuck.Op.Spelling

/-!
# Programs as trees

A program whose brackets match is a tree: a sequence of runs and of loops
around such sequences. `Block` is that tree, built from left to right as a
text is read. `Block.source` is its text and `Block.lower` its operations:

* **runs** — one operation each;
* **loops** — the body between two jumps that know each other's index, or the
  single operation that `Op.fuse?` has for the body.

`Block.lower` takes the index at which the operations will stand, because of
the jumps. `lower_add` says that nothing else depends on it. A block is
`Tight` if its runs are as long as they can be, which is how a compiler that
reads whole runs sees the text.
-/

namespace Brainfuck

/-- A program with matched brackets; each constructor adds to the end. -/
inductive Block where
  | empty
  /-- `n` times the action, behind `before`. -/
  | act (before : Block) (a : Action) (n : Nat)
  /-- A loop around `body`, behind `before`. -/
  | loop (before body : Block)
  deriving DecidableEq, Repr

@[simp] theorem Instr.byte_act (a : Action) : (Instr.act a).byte = a.byte := rfl

theorem Action.byte_ne_opening (a : Action) : a.byte ≠ Instr.opening.byte := by
  cases a <;> decide

theorem Action.byte_ne_closing (a : Action) : a.byte ≠ Instr.closing.byte := by
  cases a <;> decide

/-- The operations of a loop whose first one has index `slot`, given those of
its body. -/
def Op.enclose (slot : Nat) (inner : List Op) : List Op :=
  match Op.fuse? inner with
  | some op => [op]
  | none => .jumpZero (slot + 1 + inner.length) :: inner ++ [.jumpNonzero slot]

namespace Block

/-- The text of a block. -/
def source : Block → List UInt8
  | empty => []
  | act before a n => before.source ++ List.replicate n a.byte
  | loop before body => before.source ++ Op.bracket body.source

/-- The operations of a block, of which the first has index `base`. -/
def lower (base : Nat) : Block → List Op
  | empty => []
  | act before a n => before.lower base ++ [.run a n]
  | loop before body =>
    let slot := base + (before.lower base).length
    before.lower base ++ Op.enclose slot (body.lower (slot + 1))

/-- The number of operations of a block. -/
def size (b : Block) : Nat := (b.lower 0).length

/-- The operations of a block as an array of their own. -/
def code (b : Block) : Code := (b.lower 0).toArray

/-- The action of the run at the end of a block, if there is one. -/
def last? : Block → Option Action
  | act _ a _ => some a
  | _ => none

/-- The runs of a block are not empty, and neighbours are of different actions. -/
inductive Tight : Block → Prop
  | empty : Tight empty
  | act {before : Block} {a : Action} {n : Nat} : Tight before → before.last? ≠ some a →
      0 < n → Tight (before.act a n)
  | loop {before body : Block} : Tight before → Tight body → Tight (before.loop body)

end Block

/-! ## Idioms

`Op.fuse?` and `Op.Idiom` agree on the bodies that a program can have, and
neither looks at anything but runs. -/

namespace Op

theorem offset?_eq_some_iff {n : Nat} {d : Int} :
    offset? n = some d ↔ n ≤ offsetMax ∧ d = n := by
  unfold offset?
  by_cases hn : n ≤ offsetMax
  · simp [hn, eq_comm]
  · simp [hn]

/-- What `fuse?` accepts is an idiom. -/
theorem idiom_of_fuse? {ops : List Op} {op : Op} (h : fuse? ops = some op) :
    Idiom ops op := by
  unfold fuse? at h
  split at h
  · cases h
    exact .adding _
  · cases h
    exact .subtracting _
  · obtain ⟨d, hd, rfl⟩ := Option.map_eq_some_iff.mp h
    obtain ⟨-, rfl⟩ := offset?_eq_some_iff.mp hd
    exact .scanRight _
  · obtain ⟨d, hd, rfl⟩ := Option.map_eq_some_iff.mp h
    obtain ⟨-, rfl⟩ := offset?_eq_some_iff.mp hd
    exact .scanLeft _
  · split at h
    · rename_i heq
      subst heq
      obtain ⟨d, hd, rfl⟩ := Option.map_eq_some_iff.mp h
      obtain ⟨-, rfl⟩ := offset?_eq_some_iff.mp hd
      exact .giveRight _
    · cases h
  · split at h
    · rename_i heq
      subst heq
      obtain ⟨d, hd, rfl⟩ := Option.map_eq_some_iff.mp h
      obtain ⟨-, rfl⟩ := offset?_eq_some_iff.mp hd
      exact .giveLeft _
    · cases h
  · cases h

theorem fuse?_eq_none_of_not_idiom {ops : List Op} (h : ∀ op, ¬ Idiom ops op) :
    fuse? ops = none := by
  cases hf : fuse? ops with
  | none => rfl
  | some op => exact absurd (idiom_of_fuse? hf) (h op)

/-- An idiom whose run lengths are offsets is accepted. -/
theorem fuse?_of_idiom {ops : List Op} {op : Op} (h : Idiom ops op)
    (short : ∀ a n, .run a n ∈ ops → n ≤ offsetMax) : fuse? ops = some op := by
  cases h with
  | adding n => rfl
  | subtracting n => rfl
  | scanRight n =>
    have hn : n ≤ offsetMax := short .right n (by simp)
    simp [fuse?, offset?, hn]
  | scanLeft n =>
    have hn : n ≤ offsetMax := short .left n (by simp)
    simp [fuse?, offset?, hn]
  | giveRight k =>
    have hk : k ≤ offsetMax := short .right k (by simp)
    simp [fuse?, offset?, hk]
  | giveLeft k =>
    have hk : k ≤ offsetMax := short .left k (by simp)
    simp [fuse?, offset?, hk]

/-- The body of an idiom has nothing but runs in it. -/
theorem Idiom.isRun_of_mem {ops : List Op} {op : Op} (h : Idiom ops op) :
    ∀ o ∈ ops, o.isRun = true := by
  cases h <;> simp [isRun]

/-- The operation for an idiom is not a run, and it does not jump. -/
theorem Idiom.not_isRun {ops : List Op} {op : Op} (h : Idiom ops op) : op.isRun = false := by
  cases h <;> rfl

theorem Idiom.shift_eq {ops : List Op} {op : Op} (h : Idiom ops op) (k : Nat) :
    op.shift k = op := by
  cases h <;> rfl

@[simp] theorem isRun_shift (k : Nat) (op : Op) : (op.shift k).isRun = op.isRun := by
  cases op <;> rfl

/-- Only jumps notice where an array stands. -/
theorem map_shift_of_isRun {ops : List Op} (runs : ∀ o ∈ ops, o.isRun = true) (k : Nat) :
    ops.map (shift k) = ops := by
  have same : ∀ o ∈ ops, shift k o = id o := by
    intro o ho
    have hrun := runs o ho
    cases o <;> simp_all [isRun, shift]
  rw [List.map_congr_left same, List.map_id]

theorem fuse?_eq_none_of_not_isRun {ops : List Op} {o : Op} (ho : o ∈ ops)
    (hrun : o.isRun = false) : fuse? ops = none := by
  cases hf : fuse? ops with
  | none => rfl
  | some op =>
    have := (idiom_of_fuse? hf).isRun_of_mem o ho
    rw [hrun] at this
    cases this

/-- Whether a loop can be fused does not depend on where its body stands. -/
@[simp] theorem fuse?_map_shift (k : Nat) (ops : List Op) :
    fuse? (ops.map (shift k)) = fuse? ops := by
  by_cases runs : ∀ o ∈ ops, o.isRun = true
  · rw [map_shift_of_isRun runs]
  · -- a body with a jump in it is no idiom, here or there
    simp only [Classical.not_forall, Bool.not_eq_true] at runs
    obtain ⟨o, ho, hrun⟩ := runs
    rw [fuse?_eq_none_of_not_isRun ho hrun]
    apply fuse?_eq_none_of_not_isRun (List.mem_map_of_mem ho)
    rw [isRun_shift, hrun]

/-! ## Enclosing a body -/

theorem enclose_of_some {slot : Nat} {inner : List Op} {op : Op} (h : fuse? inner = some op) :
    enclose slot inner = [op] := by
  simp [enclose, h]

theorem enclose_of_none {slot : Nat} {inner : List Op} (h : fuse? inner = none) :
    enclose slot inner =
      .jumpZero (slot + 1 + inner.length) :: inner ++ [.jumpNonzero slot] := by
  simp [enclose, h]

theorem enclose_map_shift (slot k : Nat) (inner : List Op) :
    enclose (slot + k) (inner.map (shift k)) = (enclose slot inner).map (shift k) := by
  cases hf : fuse? inner with
  | none =>
    rw [enclose_of_none (by rw [fuse?_map_shift, hf]), enclose_of_none hf]
    simp [shift]
    omega
  | some op =>
    rw [enclose_of_some (by rw [fuse?_map_shift, hf]), enclose_of_some hf]
    simp [(idiom_of_fuse? hf).shift_eq]

/-- The runs of a loop are those of its body. -/
theorem run_mem_of_mem_enclose {slot : Nat} {inner : List Op} {a : Action} {n : Nat}
    (h : run a n ∈ enclose slot inner) : run a n ∈ inner := by
  cases hf : fuse? inner with
  | none =>
    rw [enclose_of_none hf] at h
    simpa using h
  | some op =>
    rw [enclose_of_some hf, List.mem_singleton] at h
    have hop := (idiom_of_fuse? hf).not_isRun
    rw [← h] at hop
    cases hop

/-- A loop never consists of runs alone. -/
theorem exists_not_isRun_mem_enclose (slot : Nat) (inner : List Op) :
    ∃ o ∈ enclose slot inner, o.isRun = false := by
  cases hf : fuse? inner with
  | none =>
    rw [enclose_of_none hf]
    exact ⟨.jumpNonzero slot, by simp, rfl⟩
  | some op =>
    rw [enclose_of_some hf]
    exact ⟨op, by simp, (idiom_of_fuse? hf).not_isRun⟩

end Op

/-! ## The operations of a block -/

namespace Block

/-- A block keeps its operations wherever it stands, up to its jumps. -/
theorem lower_add (base k : Nat) (b : Block) :
    b.lower (base + k) = (b.lower base).map (Op.shift k) := by
  induction b generalizing base with
  | empty => rfl
  | act before a n ih => simp [lower, ih, Op.shift]
  | loop before body ihBefore ihBody =>
    -- the slot of the loop moves by `k`, and the body behind it does too
    have hslot : base + k + (before.lower base).length =
        base + (before.lower base).length + k := by omega
    have hinner : base + (before.lower base).length + k + 1 =
        base + (before.lower base).length + 1 + k := by omega
    simp only [lower, ihBefore, List.length_map, List.map_append]
    rw [← Op.enclose_map_shift, ← ihBody, hslot, hinner]

theorem lower_eq_map_shift (base : Nat) (b : Block) :
    b.lower base = (b.lower 0).map (Op.shift base) := by
  have h := lower_add 0 base b
  rwa [Nat.zero_add] at h

@[simp] theorem length_lower (base : Nat) (b : Block) : (b.lower base).length = b.size := by
  rw [lower_eq_map_shift, List.length_map, size]

@[simp] theorem fuse?_lower (base : Nat) (b : Block) :
    Op.fuse? (b.lower base) = Op.fuse? (b.lower 0) := by
  rw [lower_eq_map_shift, Op.fuse?_map_shift]

theorem lower_loop (base : Nat) (before body : Block) :
    (before.loop body).lower base = before.lower base ++
      Op.enclose (base + before.size) (body.lower (base + before.size + 1)) := by
  simp [lower]

@[simp] theorem size_empty : empty.size = 0 := rfl

@[simp] theorem size_act (before : Block) (a : Action) (n : Nat) :
    (before.act a n).size = before.size + 1 := by
  rw [size, lower, List.length_append, length_lower]
  rfl

theorem size_loop_of_some {before body : Block} {op : Op}
    (h : Op.fuse? (body.lower 0) = some op) : (before.loop body).size = before.size + 1 := by
  rw [size, lower_loop, Op.enclose_of_some ((fuse?_lower _ body).trans h)]
  simp

theorem size_loop_of_none {before body : Block} (h : Op.fuse? (body.lower 0) = none) :
    (before.loop body).size = before.size + body.size + 2 := by
  rw [size, lower_loop, Op.enclose_of_none ((fuse?_lower _ body).trans h)]
  simp
  omega

@[simp] theorem source_empty : empty.source = [] := rfl

theorem length_source_act (before : Block) (a : Action) (n : Nat) :
    (before.act a n).source.length = before.source.length + n := by
  simp [source]

/-- A block with a loop at its end, in front of other text. -/
theorem source_loop_append (before body : Block) (rest : List UInt8) :
    (before.loop body).source ++ rest =
      before.source ++ Instr.opening.byte :: (body.source ++ Instr.closing.byte :: rest) := by
  simp [source, Op.bracket]

theorem length_source_loop (before body : Block) :
    (before.loop body).source.length = before.source.length + body.source.length + 2 := by
  simp [source, Op.bracket]
  omega

/-- A block of nothing but runs reads as its operations do. -/
theorem source_eq_flatMap_spell {base : Nat} {b : Block}
    (runs : ∀ o ∈ b.lower base, o.isRun = true) :
    b.source = (b.lower base).flatMap Op.spell := by
  induction b with
  | empty => rfl
  | act before a n ih =>
    have runsBefore : ∀ o ∈ before.lower base, o.isRun = true := by
      intro o ho
      exact runs o (List.mem_append_left _ ho)
    simp [source, lower, ih runsBefore, Op.spell]
  | loop before body _ _ =>
    -- a loop leaves an operation that is no run, whether it is fused or not
    obtain ⟨o, ho, hrun⟩ := Op.exists_not_isRun_mem_enclose
      (base + before.size) (body.lower (base + before.size + 1))
    have := runs o (by rw [lower_loop]; exact List.mem_append_right _ ho)
    rw [hrun] at this
    cases this

/-- No run is longer than the text. -/
theorem le_length_source_of_run_mem {base : Nat} {b : Block} {a : Action} {n : Nat}
    (h : .run a n ∈ b.lower base) : n ≤ b.source.length := by
  induction b generalizing base with
  | empty => cases h
  | act before a' n' ih =>
    rw [length_source_act]
    rcases List.mem_append.mp h with h | h
    · have := ih h
      omega
    · cases List.mem_singleton.mp h
      omega
  | loop before body ihBefore ihBody =>
    rw [length_source_loop]
    rw [lower_loop] at h
    rcases List.mem_append.mp h with h | h
    · have := ihBefore h
      omega
    · have := ihBody (Op.run_mem_of_mem_enclose h)
      omega

/-- The runs of a tight block are not empty. -/
theorem Tight.pos_of_run_mem {base : Nat} {b : Block} (tight : b.Tight) {a : Action} {n : Nat}
    (h : .run a n ∈ b.lower base) : 0 < n := by
  induction tight generalizing base with
  | empty => cases h
  | act _ _ positive ih =>
    rcases List.mem_append.mp h with h | h
    · exact ih h
    · cases List.mem_singleton.mp h
      exact positive
  | loop _ _ ihBefore ihBody =>
    rw [lower_loop] at h
    rcases List.mem_append.mp h with h | h
    · exact ihBefore h
    · exact ihBody (Op.run_mem_of_mem_enclose h)

/-- Every operation stands for at least one byte of the text. -/
theorem Tight.size_le {b : Block} (tight : b.Tight) : b.size ≤ b.source.length := by
  induction tight with
  | empty => exact Nat.le_refl 0
  | act _ _ positive ih =>
    rw [size_act, length_source_act]
    omega
  | @loop before body _ _ ihBefore ihBody =>
    rw [length_source_loop]
    cases hf : Op.fuse? (body.lower 0) with
    | none =>
      rw [size_loop_of_none hf]
      omega
    | some op =>
      rw [size_loop_of_some hf]
      omega

end Block

end Brainfuck
