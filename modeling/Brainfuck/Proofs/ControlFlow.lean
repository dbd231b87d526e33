import Brainfuck.Machine.Run
import Brainfuck.Proofs.Form

/-!
# Loops at run time

The jumps of a compiled array are absolute, and the program counter moves on by
one after each of them. Still, a run goes through the array as through nested
loops:

* **one operation** — an operation that does not jump leaves the counters and
  the length of the tape alone, however it ends (`Machine.Beside`);
* **one step** — a step goes to the next operation, but from either end of a
  loop a zero leads behind the loop and any other value into its body
  (`Machine.Passes`);
* **one loop** — a step into a loop from outside goes to its first operation, a
  step out of it goes behind its last one and only with a zero, and a step into
  the body takes a cell that is not zero (`Machine.Respects`). This holds of all
  loops of a canonical array and for all machines
  (`Code.Canonical.respects_of_step`);
* **runs** — hence a run is in a loop only after it was at its first operation
  (`Code.Canonical.exists_head_of_advance`).

The main result is `step_respects_loops`.
-/

namespace Brainfuck

namespace Machine

/-! ## What an operation leaves alone -/

/-- The two machines have the same counters and tapes of the same length. -/
structure Beside (m u : Machine) : Prop where
  pc : u.pc = m.pc
  steps : u.steps = m.steps
  size : u.tape.size = m.tape.size

namespace Beside

variable {m u v : Machine}

theorem refl (m : Machine) : Beside m m := ⟨rfl, rfl, rfl⟩

theorem trans (h : Beside m u) (h' : Beside u v) : Beside m v :=
  ⟨h'.pc.trans h.pc, h'.steps.trans h.steps, h'.size.trans h.size⟩

theorem setCell (m : Machine) (v : UInt8) : Beside m (m.setCell v) := by
  refine ⟨rfl, rfl, ?_⟩
  show (m.tape.set m.ptr v).size = m.tape.size
  rw [Tape.size_set]

theorem move {offset : Int} (h : (m.move offset).state? = some u) : Beside m u := by
  unfold Machine.move at h
  split at h
  · cases h
    exact ⟨rfl, rfl, rfl⟩
  · cases h
    exact .refl _

theorem readCell {n : Nat} (h : (m.readCell n).state? = some u) : Beside m u := by
  induction n generalizing m with
  | zero =>
    cases h
    exact .refl _
  | succ n ih =>
    rw [Machine.readCell] at h
    split at h
    · rename_i b c _
      have hset : Beside m { m with tape := m.tape.set m.ptr b, console := c } :=
        ⟨rfl, rfl, Tape.size_set ..⟩
      exact hset.trans (ih h)
    · cases h
      exact ⟨rfl, rfl, rfl⟩
    · cases h
      exact ⟨rfl, rfl, rfl⟩
    · cases h

theorem writeCell {n : Nat} (h : (m.writeCell n).state? = some u) : Beside m u := by
  induction n generalizing m with
  | zero =>
    cases h
    exact .refl _
  | succ n ih =>
    rw [Machine.writeCell] at h
    split at h
    · rename_i c _
      have hput : Beside m { m with console := c } := ⟨rfl, rfl, rfl⟩
      exact hput.trans (ih h)
    · cases h
      exact ⟨rfl, rfl, rfl⟩
    · cases h

theorem scanFor {stride : Int} {fuel : Nat} (h : (m.scanFor stride fuel).state? = some u) :
    Beside m u := by
  induction fuel generalizing m with
  | zero => cases h
  | succ fuel ih =>
    rw [Machine.scanFor] at h
    split at h
    · cases h
      exact .refl _
    · split at h
      · rename_i cell _
        have hmove : Beside m { m with ptr := cell } := ⟨rfl, rfl, rfl⟩
        exact hmove.trans (ih h)
      · cases h
        exact .refl _

theorem transfer {offset : Int} (h : (m.transfer offset).state? = some u) : Beside m u := by
  unfold Machine.transfer at h
  dsimp only at h
  split at h
  · cases h
    exact .refl _
  · split at h
    · cases h
      exact ⟨rfl, rfl, by simp⟩
    · cases h
      exact .refl _

theorem act {n : Nat} {a : Action} (h : (m.act n a).state? = some u) : Beside m u := by
  cases a with
  | right => exact .move h
  | left => exact .move h
  | inc =>
    cases h
    exact .setCell m _
  | dec =>
    cases h
    exact .setCell m _
  | write => exact .writeCell h
  | read => exact .readCell h

/-- An operation that does not jump changes cells, the pointer and the console
only, also if it fails. -/
theorem exec {op : Op} (straight : op.isJump = false) (h : (m.exec op).state? = some u) :
    Beside m u := by
  cases op with
  | run a n => exact .act h
  | jumpZero target => cases straight
  | jumpNonzero target => cases straight
  | clear =>
    cases h
    exact .setCell m 0
  | scan stride => exact .scanFor h
  | transfer offset => exact .transfer h
  | trap =>
    cases h
    exact .refl _

end Beside

/-! ## One step -/

variable {code : Code} {m m' : Machine}

/-- A step that succeeds finds the end of the program, or executes an operation
and counts it. -/
theorem of_step_eq_done {more : Bool} (h : m.step code = .done more m') :
    (m' = m ∧ m.atEnd code = true) ∨
      ∃ op u, code[m.pc]? = some op ∧ m.exec op = .done () u ∧ m' = u.tick := by
  cases more with
  | false => exact .inl (eq_of_step_false h)
  | true =>
    unfold step at h
    split at h
    · cases h
    · rename_i op hop
      split at h
      · cases hexec : m.exec op with
        | done answer u =>
          rw [hexec] at h
          cases h
          exact .inr ⟨op, u, hop, hexec, rfl⟩
        | failed e u =>
          rw [hexec] at h
          cases h
        | unfinished =>
          rw [hexec] at h
          cases h
      · cases h

/-- Where a step goes on. -/
inductive Passes (code : Code) (m m' : Machine) : Prop
  | next {op : Op} : code[m.pc]? = some op → op.isJump = false → m'.pc = bump m.pc →
      Passes code m m'
  | behind {first last : Nat} : code.Pair first last → m.pc = first ∨ m.pc = last →
      m'.pc = bump last → m'.cell = 0 → Passes code m m'
  | into {first last : Nat} : code.Pair first last → m.pc = first ∨ m.pc = last →
      m'.pc = bump first → m'.cell ≠ 0 → Passes code m m'

/-- What a step that succeeds does to the counter of a canonical array. -/
theorem passes_of_step (canonical : code.Canonical) {more : Bool}
    (h : m.step code = .done more m') : (m' = m ∧ m.atEnd code = true) ∨ Passes code m m' := by
  rcases of_step_eq_done h with hend | ⟨op, u, hop, hexec, rfl⟩
  · exact .inl hend
  · right
    have straight (hjump : op.isJump = false) : Passes code m u.tick := by
      have hbeside : Beside m u := .exec hjump (by rw [hexec]; rfl)
      refine .next hop hjump ?_
      show bump u.pc = bump m.pc
      rw [hbeside.pc]
    cases op with
    | jumpZero last =>
      have pair := canonical.opening m.pc last hop
      rw [exec] at hexec
      by_cases hcell : m.cell = 0
      · rw [if_pos hcell] at hexec
        cases hexec
        exact .behind pair (.inl rfl) rfl hcell
      · rw [if_neg hcell] at hexec
        cases hexec
        exact .into pair (.inl rfl) rfl hcell
    | jumpNonzero first =>
      have pair := canonical.closing first m.pc hop
      rw [exec] at hexec
      by_cases hcell : m.cell = 0
      · rw [if_pos hcell] at hexec
        cases hexec
        exact .behind pair (.inr rfl) rfl hcell
      · rw [if_neg hcell] at hexec
        cases hexec
        exact .into pair (.inr rfl) rfl hcell
    | run a n => exact straight rfl
    | clear => exact straight rfl
    | scan stride => exact straight rfl
    | transfer offset => exact straight rfl
    | trap => exact straight rfl

/-! ## One loop -/

/-- The program counter is at one of the two ends of a loop or between them. -/
def Inside (i j : Nat) (m : Machine) : Prop := i ≤ m.pc ∧ m.pc ≤ j

/-- The way from `m` to `m'` keeps to the loop between `i` and `j`. -/
structure Respects (i j : Nat) (m m' : Machine) : Prop where
  /-- A loop is entered at its first operation. -/
  enters : ¬ m.Inside i j → m'.Inside i j → m'.pc = i
  /-- A loop is left behind its last operation, and with a zero. -/
  leaves : m.Inside i j → ¬ m'.Inside i j → m'.pc = j + 1 ∧ m'.cell = 0
  /-- The body is executed only for a cell that is not zero. -/
  repeats : m.pc = i ∨ m.pc = j → m'.pc = i + 1 → m'.cell ≠ 0

theorem Respects.refl {i j : Nat} {m : Machine} (h : m.pc ≠ j) : Respects i j m m := by
  refine ⟨?_, ?_, ?_⟩
  · intro hout hin
    exact absurd hin hout
  · intro hin hout
    exact absurd hin hout
  · intro hends hback
    omega

end Machine

namespace Code

open Machine

variable {code : Code} {i j : Nat} {m m' : Machine}

/-- A step that goes where `Passes` says keeps to every loop: two loops are the
same, nested or apart. -/
theorem Canonical.respects_of_passes (canonical : code.Canonical) (small : code.size ≤ counterMax)
    (pair : code.Pair i j) (passes : Passes code m m') : Respects i j m m' := by
  have hlt := pair.lt
  have hbump {k : Nat} {op : Op} (h : code[k]? = some op) : bump k = k + 1 := by
    have := (Array.getElem?_eq_some_iff.mp h).1
    exact bump_of_lt (by omega)
  cases passes with
  | @next op hop straight hpc =>
    -- the two ends of the loop are jumps
    have hne := pair.ne_of_not_isJump hop straight
    rw [hbump hop] at hpc
    refine ⟨?_, ?_, ?_⟩
    · intro hout hin
      unfold Inside at hout hin
      omega
    · intro hin hout
      unfold Inside at hin hout
      omega
    · intro hends
      omega
  | @behind first last pair' hends hpc hcell =>
    have hlt' := pair'.lt
    have hloops := canonical.same_or_nested_or_disjoint pair pair'
    rw [hbump pair'.closes] at hpc
    refine ⟨?_, ?_, ?_⟩
    · intro hout hin
      unfold Inside at hout hin
      omega
    · intro hin hout
      unfold Inside at hin hout
      exact ⟨by omega, hcell⟩
    · intro _ hback
      omega
  | @into first last pair' hends hpc hcell =>
    have hlt' := pair'.lt
    have hloops := canonical.same_or_nested_or_disjoint pair pair'
    rw [hbump pair'.opens] at hpc
    refine ⟨?_, ?_, ?_⟩
    · intro hout hin
      unfold Inside at hout hin
      omega
    · intro hin hout
      unfold Inside at hin hout
      omega
    · intro _ _
      exact hcell

/-- A step keeps to all loops of a canonical array. -/
theorem Canonical.respects_of_step (canonical : code.Canonical) (small : code.size ≤ counterMax)
    (pair : code.Pair i j) {more : Bool} (h : m.step code = .done more m') :
    Respects i j m m' := by
  rcases passes_of_step canonical h with ⟨rfl, hend⟩ | passes
  · have hsize : code.size ≤ m'.pc := by simpa [atEnd] using hend
    have hlast := pair.lt_size
    exact .refl (by omega)
  · exact canonical.respects_of_passes small pair passes

/-- A run that does not start in the middle of a loop is in the loop only after
it was at its first operation. -/
theorem Canonical.exists_head_of_advance (canonical : code.Canonical)
    (small : code.size ≤ counterMax) (pair : code.Pair i j) {n : Nat}
    (hstart : m.pc ≤ i ∨ j < m.pc) (run : m.advance code n = .done () m')
    (hin : m'.Inside i j) : ∃ k u, k ≤ n ∧ m.advance code k = .done () u ∧ u.pc = i := by
  induction n generalizing m with
  | zero =>
    cases run
    unfold Inside at hin
    exact ⟨0, m', Nat.le_refl 0, rfl, by omega⟩
  | succ n ih =>
    by_cases hhead : m.pc = i
    · exact ⟨0, m, Nat.zero_le _, rfl, hhead⟩
    · rw [advance] at run
      cases hstep : m.step code with
      | done more u =>
        rw [hstep] at run
        have hnext : u.pc ≤ i ∨ j < u.pc := by
          have henters := (canonical.respects_of_step small pair hstep).enters
          unfold Inside at henters
          omega
        cases more with
        | true =>
          obtain ⟨k, v, hk, hrun, hpc⟩ := ih hnext run
          refine ⟨k + 1, v, Nat.succ_le_succ hk, ?_, hpc⟩
          rw [advance, hstep]
          exact hrun
        | false =>
          -- the run is over, and did not get into the loop
          rw [(eq_of_step_false hstep).1] at run
          cases run
          unfold Inside at hin
          omega
      | failed e u =>
        rw [hstep] at run
        cases run
      | unfinished =>
        rw [hstep] at run
        cases run

end Code

/-- **Structured control flow.** Every step of every machine keeps to all loops
of a compiled array, and every run from the start comes into a loop through its
first operation. -/
theorem step_respects_loops {p : List UInt8} {code : Code} (short : p.length ≤ offsetMax)
    (accepted : (compile p).result = .ok code) {i j : Nat} (pair : code.Pair i j) :
    (∀ (m m' : Machine) (more : Bool), m.step code = .done more m' →
      Machine.Respects i j m m') ∧
    (∀ (size : Nat) (console : Console) (n : Nat) (m : Machine),
      (Machine.start size console).advance code n = .done () m → m.Inside i j →
      ∃ k u, k ≤ n ∧ (Machine.start size console).advance code k = .done () u ∧ u.pc = i) := by
  obtain ⟨b, tight, rfl, rfl⟩ := exists_block_of_compile accepted
  have canonical := tight.canonical short
  have small : b.code.size ≤ counterMax := by
    have hsize : b.code.size = b.size := rfl
    have := tight.size_le
    unfold offsetMax at short
    unfold counterMax
    omega
  refine ⟨?_, ?_⟩
  · intro m m' more h
    exact canonical.respects_of_step small pair h
  · intro size console n m run hin
    exact canonical.exists_head_of_advance small pair (.inl (Nat.zero_le i)) run hin

/-- The end of a loop that counts down. -/
theorem step_respects_loops_countdown :
    "+[-.]".toUTF8.data.toList.length ≤ offsetMax ∧
    (compile "+[-.]".toUTF8.data.toList).result =
      .ok #[.run .inc 1, .jumpZero 4, .run .dec 1, .run .write 1, .jumpNonzero 1] ∧
    Code.Pair #[.run .inc 1, .jumpZero 4, .run .dec 1, .run .write 1, .jumpNonzero 1] 1 4 ∧
    Machine.Respects 1 4 { tape := .blank 1, pc := 4 } { tape := .blank 1, pc := 5, steps := 1 } := by
  have short : "+[-.]".toUTF8.data.toList.length ≤ offsetMax := by decide
  have accepted : (compile "+[-.]".toUTF8.data.toList).result =
      .ok #[.run .inc 1, .jumpZero 4, .run .dec 1, .run .write 1, .jumpNonzero 1] := by
    decide +kernel
  have pair : Code.Pair #[.run .inc 1, .jumpZero 4, .run .dec 1, .run .write 1, .jumpNonzero 1]
      1 4 := ⟨by decide, rfl, rfl⟩
  exact ⟨short, accepted, pair, (step_respects_loops short accepted pair).1 _ _ true rfl⟩

end Brainfuck
