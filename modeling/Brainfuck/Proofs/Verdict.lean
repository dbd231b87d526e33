import Brainfuck.Proofs.Brackets
import Brainfuck.Proofs.Draft

/-!
# Which programs are accepted, and what is said about the others

The compiler finds errors with a stack of open loops, while it gathers runs
and replaces loops. What it reports can be told from the text alone:

* **the first fault** — the first byte that is none of the eight, or that is a
  `]` with as many `]` as `[` in front of it, is reported;
* **an unclosed loop** — without a fault, but with more `[` than `]`, the last
  `[` that has no partner is reported;
* **acceptance** — every other program is accepted, and these are the ones of
  the eight bytes only with balanced brackets.

The loops on the stack are those whose `[` has no partner in what was read
(`Draft.mem_openings_iff`). `Verdict` lists the cases, and `Draft.Reads.verdict`
shows that the compiler keeps to the list, whatever it has read before.
-/

namespace Brainfuck

/-- How many loops a text opens. -/
def opens (p : List UInt8) : Nat := p.count Instr.opening.byte

/-- How many loops a text closes. -/
def closes (p : List UInt8) : Nat := p.count Instr.closing.byte

/-- The byte at `k` is none of the eight, or a `]` that finds every `[` in front of
it taken. -/
def Fault (p : List UInt8) (k : Nat) : Prop :=
  ∃ b, p[k]? = some b ∧
    (b ∉ alphabet ∨ b = Instr.closing.byte ∧ closes (p.take k) = opens (p.take k))

/-- The leftmost fault. -/
structure FirstFault (p : List UInt8) (k : Nat) : Prop where
  fault : Fault p k
  first : ∀ j < k, ¬ Fault p j

/-- A `[` without partner. -/
def Unclosed (p : List UInt8) (m : Nat) : Prop :=
  p[m]? = some Instr.opening.byte ∧ Plain.closing? p m = none

/-- The rightmost `[` without partner. -/
structure LastUnclosed (p : List UInt8) (m : Nat) : Prop where
  unclosed : Unclosed p m
  last : ∀ j, m < j → ¬ Unclosed p j

/-- No `]` comes too early, and in the end there are as many `[` as `]`. -/
structure Balanced (p : List UInt8) : Prop where
  prefixes : ∀ k, closes (p.take k) ≤ opens (p.take k)
  total : closes p = opens p

/-! ## Faults -/

theorem opens_append (p q : List UInt8) : opens (p ++ q) = opens p + opens q :=
  List.count_append

theorem closes_append (p q : List UInt8) : closes (p ++ q) = closes p + closes q :=
  List.count_append

theorem byte_mem_alphabet (i : Instr) : i.byte ∈ alphabet := by
  rw [← isSignificant_iff]
  simp [isSignificant]

/-- The compiler reads exactly the bytes of the alphabet. -/
theorem notMem_alphabet_iff {b : UInt8} : b ∉ alphabet ↔ Instr.ofByte? b = none := by
  rw [← isSignificant_iff]
  simp [isSignificant]

theorem fault_iff {p : List UInt8} {k : Nat} {b : UInt8} (h : p[k]? = some b) :
    Fault p k ↔ b ∉ alphabet ∨
      b = Instr.closing.byte ∧ closes (p.take k) = opens (p.take k) := by
  constructor
  · rintro ⟨b', hb', hfault⟩
    rw [h] at hb'
    cases hb'
    exact hfault
  · intro hfault
    exact ⟨b, h, hfault⟩

theorem not_fault_of_length_le {p : List UInt8} {k : Nat} (h : p.length ≤ k) : ¬ Fault p k := by
  rintro ⟨b, hb, -⟩
  rw [List.getElem?_eq_none h] at hb
  cases hb

theorem not_fault_of_forall_lt {p : List UInt8} (clean : ∀ j < p.length, ¬ Fault p j) (k : Nat) :
    ¬ Fault p k := by
  by_cases hk : k < p.length
  · exact clean k hk
  · exact not_fault_of_length_le (Nat.le_of_not_lt hk)

/-- Only a `]` or a comment byte can be a fault. -/
theorem not_fault_of_instr {p : List UInt8} {k : Nat} {i : Instr} (h : p[k]? = some i.byte)
    (hne : i.byte ≠ Instr.closing.byte) : ¬ Fault p k := by
  rw [fault_iff h]
  rintro (hforeign | ⟨hclosing, -⟩)
  · exact hforeign (byte_mem_alphabet i)
  · exact hne hclosing

/-- A `]` that has a loop to close is no fault. -/
theorem not_fault_of_closing {p : List UInt8} {k : Nat}
    (h : p[k]? = some Instr.closing.byte)
    (hopen : closes (p.take k) < opens (p.take k)) : ¬ Fault p k := by
  rw [fault_iff h]
  rintro (hforeign | ⟨-, heq⟩)
  · exact hforeign (byte_mem_alphabet .closing)
  · omega

/-- There is at most one first fault. -/
theorem FirstFault.unique {p : List UInt8} {j k : Nat} (hj : FirstFault p j)
    (hk : FirstFault p k) : j = k := by
  rcases Nat.lt_trichotomy j k with h | h | h
  · exact absurd hj.fault (hk.first j h)
  · exact h
  · exact absurd hk.fault (hj.first k h)

/-- Without faults, no `]` comes too early. -/
theorem closes_take_le_of_not_fault {p : List UInt8} (clean : ∀ k, ¬ Fault p k) (k : Nat) :
    closes (p.take k) ≤ opens (p.take k) := by
  induction k with
  | zero => simp [closes, opens]
  | succ k ih =>
    by_cases hk : k < p.length
    · have hget : p[k]? = some p[k] := List.getElem?_eq_getElem hk
      have hclean := clean k
      rw [fault_iff hget] at hclean
      rw [List.take_succ_eq_append_getElem hk]
      by_cases hclosing : p[k] = Instr.closing.byte
      · -- a `]` that is no fault finds a `[` to close
        have hne : closes (p.take k) ≠ opens (p.take k) := by
          intro heq
          exact hclean (.inr ⟨hclosing, heq⟩)
        rw [hclosing, closes_append, opens_append]
        have hone : closes [Instr.closing.byte] = 1 := rfl
        omega
      · have hnone : closes [p[k]] = 0 := by
          simp [closes, hclosing]
        rw [closes_append, opens_append]
        omega
    · rw [List.take_of_length_le (by omega)]
      rw [List.take_of_length_le (by omega)] at ih
      exact ih

/-- Programs of instructions with balanced brackets are those without faults in
which every loop is closed. -/
theorem clean_iff_balanced (p : List UInt8) :
    ((∀ k, ¬ Fault p k) ∧ closes p = opens p) ↔
      (∀ b ∈ p, b ∈ alphabet) ∧ Balanced p := by
  constructor
  · rintro ⟨clean, total⟩
    refine ⟨?_, closes_take_le_of_not_fault clean, total⟩
    intro b hb
    obtain ⟨k, hk⟩ := List.getElem?_of_mem hb
    have hclean := clean k
    rw [fault_iff hk] at hclean
    by_contra hforeign
    exact hclean (.inl hforeign)
  · rintro ⟨significant, balanced⟩
    refine ⟨?_, balanced.total⟩
    rintro k ⟨b, hb, hforeign | ⟨rfl, heq⟩⟩
    · exact hforeign (significant b (List.mem_of_getElem? hb))
    · -- one byte further there are more `]` than `[`
      have hprefix := balanced.prefixes (k + 1)
      obtain ⟨hk, hget⟩ := List.getElem?_eq_some_iff.mp hb
      rw [List.take_succ_eq_append_getElem hk, hget, closes_append, opens_append, heq] at hprefix
      have hone : closes [Instr.closing.byte] = 1 := rfl
      have hnone : opens [Instr.closing.byte] = 0 := rfl
      omega

/-! ## Brackets without partner -/

theorem Unclosed.lt_length {p : List UInt8} {m : Nat} (h : Unclosed p m) : m < p.length :=
  (List.getElem?_eq_some_iff.mp h.1).1

/-- A text in which no search ends does not close what stands in front of it. -/
theorem unclosed_append_iff {front back : List UInt8} {m : Nat} (hm : m < front.length)
    (h : ∀ depth, Plain.partner Instr.opening.byte Instr.closing.byte depth back = none) :
    Unclosed (front ++ back) m ↔ Unclosed front m := by
  rw [Unclosed, Unclosed, Plain.closing?, Plain.closing?, Option.map_eq_none_iff,
    Option.map_eq_none_iff, List.getElem?_append_left hm, List.drop_append_of_le_length hm,
    Plain.partner_append_eq_none_iff h]

/-- A block closes what it opens, and nothing else. -/
theorem unclosed_append_block_iff (front : List UInt8) (b : Block) (m : Nat) :
    Unclosed (front ++ b.source) m ↔ Unclosed front m := by
  by_cases hm : m < front.length
  · exact unclosed_append_iff hm b.neutral_source.partner_eq_none
  · refine iff_of_false ?_ ?_
    · rintro ⟨hget, hnone⟩
      obtain ⟨i, rfl⟩ := Nat.exists_eq_add_of_le (Nat.le_of_not_lt hm)
      rw [List.getElem?_append_right (Nat.le_add_right ..), Nat.add_sub_cancel_left] at hget
      obtain ⟨k, hk⟩ := b.exists_partner_of_opening hget []
      rw [Plain.closing?, Nat.add_assoc, List.drop_length_add_append] at hnone
      rw [List.append_nil] at hk
      rw [hk] at hnone
      cases hnone
    · intro h
      exact hm h.lt_length

/-- A `[` at the end has no partner. -/
theorem unclosed_concat_opening_iff (front : List UInt8) (m : Nat) :
    Unclosed (front ++ [Instr.opening.byte]) m ↔ m = front.length ∨ Unclosed front m := by
  have hsearch (depth : Nat) : Plain.partner Instr.opening.byte Instr.closing.byte depth
      [Instr.opening.byte] = none := by
    rw [Plain.partner_near Block.opening_ne_closing]
    rfl
  by_cases hm : m < front.length
  · rw [unclosed_append_iff hm hsearch]
    have hne : m ≠ front.length := Nat.ne_of_lt hm
    simp [hne]
  · constructor
    · intro h
      have := h.lt_length
      rw [List.length_append, List.length_singleton] at this
      exact .inl (by omega)
    · rintro (rfl | h)
      · exact ⟨List.getElem?_concat_length, by simp [Plain.closing?, Plain.partner]⟩
      · exact absurd h.lt_length hm

/-! ## Brackets in a draft -/

theorem Block.closes_source (b : Block) : closes b.source = opens b.source := by
  induction b with
  | empty => rfl
  | act before a n ih =>
    have hopens : opens (List.replicate n a.byte) = 0 := by
      simp [opens, List.count_replicate, a.byte_ne_opening]
    have hcloses : closes (List.replicate n a.byte) = 0 := by
      simp [closes, List.count_replicate, a.byte_ne_closing]
    rw [source, closes_append, opens_append, ih, hopens, hcloses]
  | loop before body ihBefore ihBody =>
    have hopens : opens (Op.bracket body.source) = opens body.source + 1 := by
      simp [opens, Op.bracket, Block.opening_ne_closing.symm]
    have hcloses : closes (Op.bracket body.source) = closes body.source + 1 := by
      simp [closes, Op.bracket, Block.opening_ne_closing]
    rw [source, closes_append, opens_append, ihBefore, hopens, hcloses, ihBody]

namespace Draft

/-- As many more `[` than `]` were read as loops are open. -/
theorem opens_textBefore (outer : List Block) :
    opens (textBefore outer) = closes (textBefore outer) + outer.length := by
  induction outer with
  | nil => rfl
  | cons b outer ih =>
    have hopens : opens [Instr.opening.byte] = 1 := rfl
    have hcloses : closes [Instr.opening.byte] = 0 := rfl
    simp only [textBefore, opens_append, closes_append, ih, b.closes_source, hopens, hcloses,
      List.length_cons]
    omega

theorem opens_source (d : Draft) : opens d.source = closes d.source + d.outer.length := by
  rw [source, opens_append, closes_append, opens_textBefore, d.current.closes_source]
  omega

/-- The positions on the stack are those of the brackets without partner. -/
theorem mem_openings_iff (d : Draft) (m : Nat) :
    (∃ o ∈ openings d.outer, o.pos = m) ↔ Unclosed d.source m := by
  rw [source, unclosed_append_block_iff]
  induction d.outer with
  | nil => simp [openings, textBefore, Unclosed]
  | cons b outer ih =>
    rw [textBefore, unclosed_concat_opening_iff, unclosed_append_block_iff, ← ih, openings]
    simp [pos, eq_comm]

/-- Every open loop is in front of what was read since. -/
theorem lt_of_mem_openings {outer : List Block} {o : Opening} (ho : o ∈ openings outer) :
    o.slot < (opsBefore outer).length ∧ o.pos < (textBefore outer).length := by
  induction outer with
  | nil => cases ho
  | cons b outer ih =>
    simp only [opsBefore, textBefore, List.length_append, List.length_singleton,
      Block.length_lower]
    rcases List.mem_cons.mp ho with rfl | ho
    · simp [slot, pos]
    · have := ih ho
      omega

/-- The innermost open loop is the last one without partner. -/
theorem lastUnclosed_source (b : Block) (outer : List Block) (body : Block) :
    LastUnclosed (source ⟨b :: outer, body⟩) (pos b outer) := by
  refine ⟨?_, ?_⟩
  · rw [← mem_openings_iff]
    exact ⟨⟨slot b outer, pos b outer⟩, List.mem_cons_self, rfl⟩
  · intro j hj hunclosed
    -- the brackets of the loops around it are in front of it
    obtain ⟨o, ho, rfl⟩ := (mem_openings_iff _ j).mpr hunclosed
    rcases List.mem_cons.mp ho with rfl | ho
    · exact Nat.lt_irrefl _ hj
    · have hbefore := (lt_of_mem_openings ho).2
      rw [pos] at hj
      omega

end Draft

/-! ## The verdict -/

/-- What may be said about a program. -/
inductive Verdict (p : List UInt8) : Except CompileError Code → Prop
  | fault {k : Nat} {b : UInt8} : FirstFault p k → p[k]? = some b →
      Verdict p (.error (if b ∈ alphabet then .unopened k else .foreign b k))
  | unclosed {m : Nat} : (∀ k, ¬ Fault p k) → closes p < opens p → LastUnclosed p m →
      Verdict p (.error (.unclosed m))
  | accepted {code : Code} : (∀ k, ¬ Fault p k) → closes p = opens p → Verdict p (.ok code)

namespace Draft

/-- A run brings no fault. -/
private theorem clean_act {d : Draft} {a : Action} {n : Nat} {rest : List UInt8}
    (clean : ∀ j < d.source.length, ¬ Fault (d.source ++ (List.replicate n a.byte ++ rest)) j) :
    ∀ j < (d.act a n).source.length,
      ¬ Fault (d.source ++ (List.replicate n a.byte ++ rest)) j := by
  intro j hj
  rw [source_act, List.length_append, List.length_replicate] at hj
  by_cases hold : j < d.source.length
  · exact clean j hold
  · apply not_fault_of_instr (i := .act a) _ a.byte_ne_closing
    rw [List.getElem?_append_right (by omega), List.getElem?_append_left (by simp; omega),
      List.getElem?_replicate, if_pos (by omega)]
    rfl

/-- One more byte that is no fault. -/
private theorem clean_snoc {front rest : List UInt8} {b : UInt8}
    (clean : ∀ j < front.length, ¬ Fault (front ++ b :: rest) j)
    (hb : ¬ Fault (front ++ b :: rest) front.length) :
    ∀ j < (front ++ [b]).length, ¬ Fault (front ++ b :: rest) j := by
  intro j hj
  rw [List.length_append, List.length_singleton] at hj
  by_cases hold : j < front.length
  · exact clean j hold
  · have : j = front.length := by omega
    rw [this]
    exact hb

/-- If there is no fault in what was read, the compiler keeps to the list. -/
theorem Reads.verdict {d : Draft} {log : List Event} {text : List UInt8} {c : Compilation}
    (reads : Reads d log text c)
    (clean : ∀ j < d.source.length, ¬ Fault (d.source ++ text) j) :
    Verdict (d.source ++ text) c.result := by
  induction reads with
  | @finished b log =>
    rw [List.append_nil] at clean ⊢
    exact .accepted (not_fault_of_forall_lt clean) (opens_source ⟨[], b⟩).symm
  | @unclosed b outer body log =>
    rw [List.append_nil] at clean ⊢
    refine .unclosed (not_fault_of_forall_lt clean) ?_ (lastUnclosed_source b outer body)
    have hopens := opens_source ⟨b :: outer, body⟩
    rw [List.length_cons] at hopens
    omega
  | @foreign d log byte rest hbyte =>
    have hget : (d.source ++ byte :: rest)[d.source.length]? = some byte := by simp
    have hforeign := notMem_alphabet_iff.mpr hbyte
    have hverdict := Verdict.fault ⟨(fault_iff hget).mpr (.inl hforeign), clean⟩ hget
    rwa [if_neg hforeign] at hverdict
  | @unopened b log rest =>
    -- nothing is open, so every `[` in front is taken
    have hget : (source ⟨[], b⟩ ++ Instr.closing.byte :: rest)[b.source.length]? =
        some Instr.closing.byte := by
      simp [source, textBefore]
    have hfront : (source ⟨[], b⟩ ++ Instr.closing.byte :: rest).take b.source.length =
        b.source := by
      simp [source, textBefore]
    have hfault := (fault_iff hget).mpr (.inr ⟨rfl, by rw [hfront]; exact b.closes_source⟩)
    have hverdict := Verdict.fault ⟨hfault, clean⟩ hget
    rwa [if_pos (byte_mem_alphabet .closing)] at hverdict
  | @act d log a n rest c _ _ _ ih =>
    have hclean := clean_act clean
    rw [← List.append_assoc, ← source_act] at hclean ⊢
    exact ih hclean
  | @enter d log rest c _ ih =>
    have hget : (d.source ++ Instr.opening.byte :: rest)[d.source.length]? =
        some Instr.opening.byte := by simp
    have hclean := clean_snoc clean (not_fault_of_instr hget Block.opening_ne_closing)
    rw [← source_enter] at hclean
    rw [List.append_cons, ← source_enter] at hclean ⊢
    exact ih hclean
  | @leave b outer body log rest c _ ih =>
    have hget : (source ⟨b :: outer, body⟩ ++ Instr.closing.byte :: rest)[
        (source ⟨b :: outer, body⟩).length]? = some Instr.closing.byte := by simp
    have hopen : closes (source ⟨b :: outer, body⟩) < opens (source ⟨b :: outer, body⟩) := by
      rw [opens_source, List.length_cons]
      omega
    have hclean := clean_snoc clean (not_fault_of_closing hget (by rwa [List.take_left]))
    rw [← source_leave] at hclean
    rw [List.append_cons, ← source_leave] at hclean ⊢
    exact ih hclean

end Draft

theorem verdict_compile (p : List UInt8) : Verdict p (compile p).result := by
  apply (reads_compile p).verdict
  intro j hj
  cases hj

/-- What the compiler says about a program, told from its text alone: the first
fault if there is one, else the last unclosed loop if there is one, else an
array; and programs get an array exactly if they consist of the eight bytes and
their brackets are balanced. -/
theorem compile_names_first_fault (p : List UInt8) :
    (∀ k b, FirstFault p k → p[k]? = some b → (compile p).result =
      .error (if b ∈ alphabet then .unopened k else .foreign b k)) ∧
    ((∀ k, ¬ Fault p k) → closes p < opens p →
      ∃ m, LastUnclosed p m ∧ (compile p).result = .error (.unclosed m)) ∧
    ((∀ k, ¬ Fault p k) → opens p ≤ closes p → ∃ code, (compile p).result = .ok code) ∧
    ((∃ code, (compile p).result = .ok code) ↔
      (∀ b ∈ p, b ∈ alphabet) ∧ Balanced p) := by
  have verdict := verdict_compile p
  rw [← clean_iff_balanced]
  generalize (compile p).result = result at verdict ⊢
  cases verdict with
  | @fault k b first hget =>
    refine ⟨?_, ?_, ?_, ?_, ?_⟩
    · intro k' b' first' hget'
      cases first.unique first'
      rw [hget] at hget'
      cases hget'
      rfl
    · intro clean
      exact absurd first.fault (clean k)
    · intro clean
      exact absurd first.fault (clean k)
    · rintro ⟨code, h⟩
      cases h
    · rintro ⟨clean, -⟩
      exact absurd first.fault (clean k)
  | @unclosed m clean more last =>
    refine ⟨?_, ?_, ?_, ?_, ?_⟩
    · intro k b first
      exact absurd first.fault (clean k)
    · intro _ _
      exact ⟨m, last, rfl⟩
    · intro _ hle
      omega
    · rintro ⟨code, h⟩
      cases h
    · rintro ⟨-, total⟩
      omega
  | @accepted code clean total =>
    refine ⟨?_, ?_, ?_, ?_, ?_⟩
    · intro k b first
      exact absurd first.fault (clean k)
    · intro _ hlt
      omega
    · intro _ _
      exact ⟨code, rfl⟩
    · intro _
      exact ⟨clean, total⟩
    · intro _
      exact ⟨code, rfl⟩

end Brainfuck
