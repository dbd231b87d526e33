import Brainfuck.Compile
import Brainfuck.Proofs.Agreement
import Brainfuck.Proofs.Draft
import Brainfuck.Proofs.Places

/-!
# Compiled runs against plain runs

The operations of a program, run by the machine, do what its text does byte by
byte. The proof is a simulation in which one operation stands for one or more
bytes:

* **pairs** — `Paired` relates a plain run and a machine that agree, at a place
  where text and operations meet;
* **one step** — from such a pair both sides come to the next one, both leave
  the tape, both are at their end, or the text spins (`Paired.progress`);
* **runs** — the end of a plain run is the end of the machine's run
  (`Paired.advance_of_stop`), by induction on the bytes, and the end of the
  machine's run is the end of the plain run unless that spins
  (`Paired.stop_of_advance`), by induction on the operations.
-/

namespace Brainfuck

/-- The plain run of a block and the machine are in the same situation, at the
same place. -/
structure Paired (b : Block) (s : Plain.State) (m : Machine) : Prop where
  agree : Agree s m
  place : b.Meets 0 0 s.pos m.pc

/-- What can happen next to a pair. -/
inductive Progress (b : Block) (s : Plain.State) (m : Machine) : Prop
  | atEnd : Plain.step b.source s = .halted → m.atEnd b.code = true → Progress b s m
  | spinning : Plain.Spins b.source s → Progress b s m
  | moved {t : Plain.State} {m' : Machine} : Plain.Reaches b.source s t →
      m.step b.code = .done true m' → Paired b t m' → m'.steps ≤ m.steps + 1 → Progress b s m
  | escaped {n : Nat} {t : Plain.State} {cell : Int} {m' : Machine} :
      Plain.Escapes b.source s n t → m.step b.code = .failed (.offTape m.pc cell) m' →
      m'.console.Serves t.unread t.written → m'.steps = m.steps → Progress b s m

/-- The plain run ends in `t`, and the machine's run ends as it does, in `m`. -/
inductive Mirrors (b : Block) (t : Plain.State) (m : Machine) :
    Outcome RunError Machine Unit → Prop
  | halted : Plain.step b.source t = .halted → m.atEnd b.code = true → Agree t m →
      Mirrors b t m (.done () m)
  | escaped {op : Nat} {cell : Int} : Plain.step b.source t = .escaped →
      m.console.Serves t.unread t.written → Mirrors b t m (.failed (.offTape op cell) m)

namespace Paired

variable {b : Block} {s : Plain.State} {m : Machine}

theorem start {size : Nat} {input : List UInt8} {c : Console} (hsize : 1 ≤ size)
    (serves : c.Serves input []) (b : Block) :
    Paired b (.start size input) (.start size c) := by
  refine ⟨⟨rfl, rfl, ?_, serves⟩, b.meets_start 0 0⟩
  show 0 < (Tape.blank size).size
  rw [Tape.size_blank]
  omega

section Step

variable (tight : b.Tight) (short : b.source.length ≤ offsetMax)
include tight short

/-- An operation that follows its text to a place makes a step. -/
theorem progress_of_follows (paired : Paired b s m) {op : Op} {dest pc : Nat}
    (hop : (b.lower 0)[m.pc]? = some op) (follows : Follows b.source s m dest pc (m.exec op))
    (place : b.Meets 0 0 dest (pc + 1)) : Progress b s m := by
  have hcell : m.ptr < m.tape.size := by
    rw [paired.agree.tape, paired.agree.ptr]
    exact paired.agree.onTape
  have hop' : b.code[m.pc]? = some op := by
    rw [Block.code, List.getElem?_toArray]
    exact hop
  have hstep : m.step b.code = (m.exec op).bind fun _ m => .done true m.tick := by
    simp only [Machine.step, hop', if_pos hcell]
  generalize m.exec op = outcome at follows hstep
  cases follows with
  | arrived hreaches hpos hagree hpc hsteps =>
    refine .moved hreaches hstep ⟨hagree.tick, ?_⟩ ?_
    · -- the program counter is far from the end of its range
      have hplace := place.le
      have hsize := tight.size_le
      have hbump : bump pc = pc + 1 := by
        apply bump_of_lt
        unfold counterMax
        unfold offsetMax at short
        omega
      rw [← hpos, ← hbump, ← hpc] at place
      exact place
    · rw [← hsteps]
      exact bump_le_succ _
  | escaped hescapes hserves hsteps => exact .escaped hescapes hstep hserves hsteps

/-- **One step.** A pair comes to the next one, unless the plain run spins. -/
theorem progress (paired : Paired b s m) : Progress b s m := by
  have hprogram : b.source = [] ++ (b.source ++ []) := by simp
  have hops : b.lower 0 = [] ++ (b.lower ([] : List Op).length ++ []) := by simp
  have agree := paired.agree
  rcases Block.Meets.end_or_stands tight hprogram hops paired.place with ⟨hpos, hpc⟩ | stands
  · refine .atEnd ?_ ?_
    · have hnone : b.source[s.pos]? = none := List.getElem?_eq_none (by simp at hpos; omega)
      simp only [Plain.step, hnone]
    · have hend : b.code.size ≤ m.pc := by simp [hpc, Block.code]
      simpa [Machine.atEnd] using hend
  · cases stands with
    | @run a n rest hn htext hop hnext =>
      have hlength : n ≤ b.source.length := by
        have hdrop := congrArg List.length htext
        simp only [List.length_drop, List.length_append, List.length_replicate] at hdrop
        omega
      exact progress_of_follows tight short paired hop
        (agree.follows_run hn (hlength.trans short) htext) hnext
    | fused htight hloop hfuse hop hnext =>
      have hidiom := Op.idiom_of_fuse? hfuse
      rw [Block.source_eq_flatMap_spell hidiom.isRun_of_mem] at hloop
      rcases agree.follows_idiom hidiom (fun a n => htight.pos_of_run_mem) hloop with
        hfollows | hspins
      · exact progress_of_follows tight short paired hop hfollows hnext
      · exact .spinning hspins
    | opening hloop hop hin hout =>
      by_cases hcell : s.cell = 0
      · apply progress_of_follows tight short paired hop _ hout
        simp only [Machine.exec, agree.cell, if_pos hcell]
        exact agree.follows_exit hloop (.inl rfl) hcell _
      · apply progress_of_follows tight short paired hop _ hin
        simp only [Machine.exec, agree.cell, if_neg hcell]
        -- going on is jumping to where the machine stands
        show Follows b.source s m (s.pos + 1) m.pc (.done () (m.jump m.pc))
        exact agree.follows_body hloop (.inl rfl) hcell m.pc
    | closing hloop hop hout hin =>
      by_cases hcell : s.cell = 0
      · apply progress_of_follows tight short paired hop _ hout
        simp only [Machine.exec, agree.cell, if_pos hcell]
        show Follows b.source s m (s.pos + 1) m.pc (.done () (m.jump m.pc))
        exact agree.follows_exit hloop (.inr rfl) hcell m.pc
      · apply progress_of_follows tight short paired hop _ hin
        simp only [Machine.exec, agree.cell, if_neg hcell]
        exact agree.follows_body hloop (.inr rfl) hcell _

/-! ## Runs -/

/-- **Forward.** Where a plain run ends, the machine's run ends, in the same way
and with no more operations than bytes. -/
theorem advance_of_stop (paired : Paired b s m) {n fuel : Nat} {t : Plain.State}
    (ends : Plain.after b.source n s = some t) (stops : ∀ u, Plain.step b.source t ≠ .moved u)
    (hfuel : n < fuel) :
    ∃ m', m'.steps ≤ m.steps + n ∧ Mirrors b t m' (m.advance b.code fuel) := by
  induction n using Nat.strongRecOn generalizing s m fuel with
  | ind n ih =>
    obtain ⟨f, rfl⟩ : ∃ f, fuel = f + 1 := ⟨fuel - 1, by omega⟩
    cases progress tight short paired with
    | atEnd hhalted hend =>
      have hhere : Plain.after b.source 0 s = some s := rfl
      obtain ⟨rfl, rfl⟩ := Plain.stop_unique ends stops hhere (by simp [hhalted])
      rw [Machine.advance_of_atEnd hend]
      exact ⟨m, Nat.le_refl _, .halted hhalted hend paired.agree⟩
    | spinning hspins =>
      -- a run that spins has no end
      obtain ⟨u, hu⟩ := (hspins.endless paired.agree.onTape).not_stops ends
      exact absurd hu (stops u)
    | @moved s' m' hreaches hstep hpaired hsteps =>
      obtain ⟨k, hk, hafter⟩ := hreaches
      obtain ⟨hle, hrest⟩ := Plain.after_of_stop ends stops hafter
      have hfewer : n - k < f := by omega
      obtain ⟨last, hlast, hmirrors⟩ := ih (n - k) (by omega) hpaired hrest hfewer
      refine ⟨last, by omega, ?_⟩
      rw [Machine.advance, hstep]
      show Mirrors b t last (m'.advance b.code f)
      exact hmirrors
    | @escaped k u cell last hescapes hstep hserves hsteps =>
      obtain ⟨rfl, rfl⟩ := Plain.stop_unique ends stops hescapes.1 (by simp [hescapes.2])
      refine ⟨last, by omega, ?_⟩
      rw [Machine.advance, hstep]
      exact .escaped hescapes.2 hserves

/-- **Backward.** Where the machine's run ends, the plain run ends in the same
way, or comes to a loop in which it spins. -/
theorem stop_of_advance (paired : Paired b s m) {fuel : Nat} {m' : Machine}
    (ended : m.advance b.code fuel = .done () m' ∧ m'.atEnd b.code = true ∨
      ∃ e, m.advance b.code fuel = .failed e m') :
    (∃ n t, Plain.after b.source n s = some t ∧ Mirrors b t m' (m.advance b.code fuel)) ∨
    ∃ n t, Plain.after b.source n s = some t ∧ Plain.Spins b.source t ∧
      t.ptr < t.tape.size := by
  induction fuel generalizing s m with
  | zero =>
    rcases ended with ⟨hdone, hend⟩ | ⟨e, hfailed⟩
    · cases hdone
      cases progress tight short paired with
      | atEnd hhalted _ => exact .inl ⟨0, s, rfl, .halted hhalted hend paired.agree⟩
      | spinning hspins => exact .inr ⟨0, s, rfl, hspins, paired.agree.onTape⟩
      | moved _ hstep _ _ =>
        rw [Machine.step_of_atEnd hend] at hstep
        cases hstep
      | escaped _ hstep _ _ =>
        rw [Machine.step_of_atEnd hend] at hstep
        cases hstep
    · cases hfailed
  | succ fuel ih =>
    cases progress tight short paired with
    | atEnd hhalted hend =>
      rw [Machine.advance_of_atEnd hend] at ended ⊢
      rcases ended with ⟨hdone, -⟩ | ⟨e, hfailed⟩
      · cases hdone
        exact .inl ⟨0, s, rfl, .halted hhalted hend paired.agree⟩
      · cases hfailed
    | spinning hspins => exact .inr ⟨0, s, rfl, hspins, paired.agree.onTape⟩
    | @moved s' next hreaches hstep hpaired _ =>
      obtain ⟨k, -, hafter⟩ := hreaches
      have hlonger : ∀ n, Plain.after b.source (k + n) s = Plain.after b.source n s' := by
        intro n
        rw [Plain.after_add, hafter]
        rfl
      have hadvance : m.advance b.code (fuel + 1) = next.advance b.code fuel := by
        rw [Machine.advance, hstep]
      rw [hadvance] at ended ⊢
      rcases ih hpaired ended with ⟨n, t, ht, hmirrors⟩ | ⟨n, t, ht, hspins, hon⟩
      · exact .inl ⟨k + n, t, (hlonger n).trans ht, hmirrors⟩
      · exact .inr ⟨k + n, t, (hlonger n).trans ht, hspins, hon⟩
    | @escaped n t cell last hescapes hstep hserves _ =>
      have hadvance : m.advance b.code (fuel + 1) = .failed (.offTape m.pc cell) last := by
        rw [Machine.advance, hstep]
      rw [hadvance] at ended ⊢
      rcases ended with ⟨hdone, -⟩ | ⟨e, hfailed⟩
      · cases hdone
      · cases hfailed
        exact .inl ⟨n, t, hescapes.1, .escaped hescapes.2 hserves⟩

end Step

end Paired

theorem Agree.flush {s : Plain.State} {m : Machine} (agree : Agree s m) :
    ∃ m', m.flush = .done () m' ∧ Agree s m' ∧ m'.steps = m.steps := by
  obtain ⟨c, hflush, hserves⟩ := agree.console.flush
  refine ⟨{ m with console := c }, ?_, ⟨agree.tape, agree.ptr, agree.onTape, hserves⟩, rfl⟩
  rw [Machine.flush, hflush]
  rfl

section Compiled

variable {p : List UInt8} {code : Code} {size : Nat} {input : List UInt8} {c : Console}

/-- **Forward simulation.** What a plain run of an accepted program comes to, its
operations come to with no more steps. If the plain run halts, the machine
succeeds with the same tape, pointer, output and unread input; if it leaves the
tape, the machine fails for that reason with the same output and unread
input. -/
theorem run_of_plain_run (short : p.length ≤ offsetMax)
    (accepted : (compile p).result = .ok code) (hsize : 1 ≤ size) (serves : c.Serves input []) :
    (∀ n t, Plain.Halts p (.start size input) n t → ∀ fuel, n < fuel →
      ∃ m, (Machine.start size c).run code fuel = .done () m ∧
        m.tape = t.tape ∧ m.ptr = t.ptr ∧ m.console.output = t.written ∧
        m.console.reader.atoms = t.unread.map .byte ∧ m.steps ≤ n) ∧
    (∀ n t, Plain.Escapes p (.start size input) n t → ∀ fuel, n < fuel →
      ∃ op cell m, (Machine.start size c).run code fuel = .failed (.offTape op cell) m ∧
        m.console.output = t.written ∧ m.console.reader.atoms = t.unread.map .byte ∧
        m.steps ≤ n) := by
  obtain ⟨b, tight, rfl, rfl⟩ := exists_block_of_compile accepted
  have paired := Paired.start hsize serves b
  have hzero : (Machine.start size c).steps = 0 := rfl
  constructor
  · intro n t ⟨hafter, hhalted⟩ fuel hfuel
    obtain ⟨m, hsteps, hmirrors⟩ :=
      paired.advance_of_stop tight short hafter (by simp [hhalted]) hfuel
    generalize hadvance : (Machine.start size c).advance b.code fuel = outcome at hmirrors
    cases hmirrors with
    | halted _ hend hagree =>
      obtain ⟨m', hflush, hagree', hsteps'⟩ := hagree.flush
      refine ⟨m', ?_, hagree'.tape, hagree'.ptr, hagree'.console.written, hagree'.console.unread,
        by omega⟩
      rw [Machine.run_of_advance_done hadvance hend, hflush]
    | escaped hescaped _ =>
      rw [hhalted] at hescaped
      cases hescaped
  · intro n t ⟨hafter, hescaped⟩ fuel hfuel
    obtain ⟨m, hsteps, hmirrors⟩ :=
      paired.advance_of_stop tight short hafter (by simp [hescaped]) hfuel
    generalize hadvance : (Machine.start size c).advance b.code fuel = outcome at hmirrors
    cases hmirrors with
    | halted hhalted _ _ =>
      rw [hescaped] at hhalted
      cases hhalted
    | @escaped op cell _ hserves =>
      exact ⟨op, cell, m, Machine.run_of_advance_failed hadvance, hserves.written,
        hserves.unread, by omega⟩

/-- Two numbers are added; a walk to the right leaves the tape. -/
theorem run_of_plain_run_sum_escape :
    (∃ m, (Machine.start 2 { reader := .ofBytes [2, 3] }).run
        #[.run .read 1, .run .right 1, .run .read 1, .run .left 1, .transfer 1, .run .right 1,
          .run .write 1] 18 = .done () m ∧
      m.tape = ⟨#[0, 5]⟩ ∧ m.ptr = 1 ∧ m.console.output = [5] ∧
      m.console.reader.atoms = [] ∧ m.steps ≤ 17) ∧
    ∃ op cell m, (Machine.start 2 { reader := .ofBytes [7] }).run
        #[.run .inc 1, .run .write 1, .jumpZero 5, .run .right 1, .run .inc 1, .jumpNonzero 2] 7 =
          .failed (.offTape op cell) m ∧
      m.console.output = [1] ∧ m.console.reader.atoms = [.byte 7] ∧ m.steps ≤ 6 := by
  have sum : (compile ",>,<[->+<]>.".toUTF8.data.toList).result =
      .ok #[.run .read 1, .run .right 1, .run .read 1, .run .left 1, .transfer 1, .run .right 1,
        .run .write 1] := by decide +kernel
  have escape : (compile "+.[>+]".toUTF8.data.toList).result =
      .ok #[.run .inc 1, .run .write 1, .jumpZero 5, .run .right 1, .run .inc 1,
        .jumpNonzero 2] := by decide +kernel
  constructor
  · exact (run_of_plain_run (by decide) sum (by decide) (.ofBytes [2, 3])).1 17
      { pos := 12, tape := ⟨#[0, 5]⟩, ptr := 1, unread := [], written := [5] }
      ⟨by decide +kernel, by decide +kernel⟩ 18 (by decide)
  · exact (run_of_plain_run (by decide) escape (by decide) (.ofBytes [7])).2 6
      { pos := 3, tape := ⟨#[1, 1]⟩, ptr := 1, unread := [7], written := [1] }
      ⟨by decide +kernel, by decide +kernel⟩ 7 (by decide)

/-- **Backward simulation.** Where the operations of an accepted program come to
an end, on the tape or off it, the plain run ends in the same way, or it never
ends because it comes to a loop in which it spins. -/
theorem plain_run_of_run (short : p.length ≤ offsetMax)
    (accepted : (compile p).result = .ok code) (hsize : 1 ≤ size) (serves : c.Serves input []) :
    (∀ fuel m, (Machine.start size c).run code fuel = .done () m →
      (∃ n t, Plain.Halts p (.start size input) n t ∧
        m.tape = t.tape ∧ m.ptr = t.ptr ∧ m.console.output = t.written ∧
        m.console.reader.atoms = t.unread.map .byte) ∨
      Plain.Endless p (.start size input) ∧
        ∃ n t, Plain.after p n (.start size input) = some t ∧ Plain.Spins p t) ∧
    (∀ fuel op cell m, (Machine.start size c).run code fuel = .failed (.offTape op cell) m →
      (∃ n t, Plain.Escapes p (.start size input) n t ∧
        m.console.output = t.written ∧ m.console.reader.atoms = t.unread.map .byte) ∨
      Plain.Endless p (.start size input) ∧
        ∃ n t, Plain.after p n (.start size input) = some t ∧ Plain.Spins p t) := by
  obtain ⟨b, tight, rfl, rfl⟩ := exists_block_of_compile accepted
  have paired := Paired.start hsize serves b
  constructor
  · intro fuel m hrun
    obtain ⟨last, hadvance, hend, hflush⟩ := Machine.of_run_eq_done hrun
    rcases paired.stop_of_advance tight short (.inl ⟨hadvance, hend⟩) with
      ⟨n, t, hafter, hmirrors⟩ | ⟨n, t, hafter, hspins, hon⟩
    · rw [hadvance] at hmirrors
      cases hmirrors with
      | halted hhalted _ hagree =>
        obtain ⟨m', hflush', hagree', -⟩ := hagree.flush
        rw [hflush] at hflush'
        cases hflush'
        exact .inl ⟨n, t, ⟨hafter, hhalted⟩, hagree'.tape, hagree'.ptr, hagree'.console.written,
          hagree'.console.unread⟩
    · exact .inr ⟨(hspins.endless hon).of_after hafter, n, t, hafter, hspins⟩
  · intro fuel op cell m hrun
    have hadvance := Machine.of_run_eq_offTape hrun
    rcases paired.stop_of_advance tight short (.inr ⟨_, hadvance⟩) with
      ⟨n, t, hafter, hmirrors⟩ | ⟨n, t, hafter, hspins, hon⟩
    · rw [hadvance] at hmirrors
      cases hmirrors with
      | escaped hescaped hserves =>
        exact .inl ⟨n, t, ⟨hafter, hescaped⟩, hserves.written, hserves.unread⟩
    · exact .inr ⟨(hspins.endless hon).of_after hafter, n, t, hafter, hspins⟩

/-- The cell of `[++]` is odd: one operation clears it, and no number of rounds. -/
theorem plain_run_of_run_spinning :
    (∃ m, (Machine.start 1 {}).run #[.run .inc 1, .clear] 2 = .done () m) ∧
    Plain.Endless "+[++]".toUTF8.data.toList (.start 1 []) ∧
    ∃ n t, Plain.after "+[++]".toUTF8.data.toList n (.start 1 []) = some t ∧
      Plain.Spins "+[++]".toUTF8.data.toList t := by
  have accepted : (compile "+[++]".toUTF8.data.toList).result = .ok #[.run .inc 1, .clear] := by
    decide +kernel
  have serves : ({} : Console).Serves [] [] := ⟨rfl, rfl, rfl, rfl⟩
  have hrun : (Machine.start 1 {}).run #[.run .inc 1, .clear] 2 = .done ()
      ⟨⟨#[0]⟩, 0, 2, 2, { calls := [.flush true] }⟩ := by decide +kernel
  refine ⟨⟨_, hrun⟩, ?_⟩
  have hsimulation := (plain_run_of_run (by decide) accepted (by decide) serves).1 2 _ hrun
  refine hsimulation.resolve_left ?_
  rintro ⟨n, t, ⟨hafter, hhalted⟩, -⟩
  have hone : Plain.after "+[++]".toUTF8.data.toList 1 (.start 1 []) =
      some { pos := 1, tape := ⟨#[1]⟩ } := by decide +kernel
  have hspins : Plain.Spins "+[++]".toUTF8.data.toList { pos := 1, tape := ⟨#[1]⟩ } :=
    ⟨.inc, 2, [], .inl rfl, by decide, by decide +kernel, by decide⟩
  obtain ⟨u, hu⟩ := ((hspins.endless (by decide)).of_after hone).not_stops hafter
  rw [hhalted] at hu
  cases hu

end Compiled

end Brainfuck
