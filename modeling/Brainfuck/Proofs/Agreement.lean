import Brainfuck.Machine.Run
import Brainfuck.Proofs.PlainIdiom
import Brainfuck.Proofs.Serving

/-!
# Operations against their text

A machine and a plain run agree if they have the same tape and pointer, and
the machine's console serves what the plain run has left to read and has
written. From such a pair, executing one operation comes out as executing the
bytes that it stands for (`Follows`): both arrive, in agreement again, or both
leave the tape, with the same bytes read and written. That is shown for

* **runs** — `Agree.follows_run`, where the machine checks the tape's ends once
  for all moves and stops reading at the first end of the input;
* **brackets** — `Agree.follows_exit` and `Agree.follows_body`;
* **scans** — `Agree.follows_scan`, move by move, with the number of cells ahead
  as the measure that the fuel of the scan covers;
* **transfers** — `Agree.follows_transfer`;
* **clearing** — `Agree.follows_clear`, unless the text spins.
-/

namespace Brainfuck

/-- The machine and the plain run are in the same situation, up to where each of
them stands in its program. -/
structure Agree (s : Plain.State) (m : Machine) : Prop where
  tape : m.tape = s.tape
  ptr : m.ptr = s.ptr
  onTape : s.ptr < s.tape.size
  console : m.console.Serves s.unread s.written

/-- An operation comes out as the bytes of the program up to `dest` do, when the
machine is left at `pc`. -/
inductive Follows (program : List UInt8) (s : Plain.State) (m : Machine) (dest pc : Nat) :
    Outcome RunError Machine Unit → Prop
  | arrived {t : Plain.State} {m' : Machine} : Plain.Reaches program s t → t.pos = dest →
      Agree t m' → m'.pc = pc → m'.steps = m.steps → Follows program s m dest pc (.done () m')
  | escaped {n : Nat} {t : Plain.State} {cell : Int} {m' : Machine} :
      Plain.Escapes program s n t → m'.console.Serves t.unread t.written →
      m'.steps = m.steps → Follows program s m dest pc (.failed (.offTape m.pc cell) m')

/-- Bytes that were executed before come on top. -/
theorem Follows.of_reaches {program : List UInt8} {s t : Plain.State} {m m' : Machine}
    {dest pc : Nat} {o : Outcome RunError Machine Unit} (first : Plain.Reaches program s t)
    (rest : Follows program t m' dest pc o) (hpc : m'.pc = m.pc) (hsteps : m'.steps = m.steps) :
    Follows program s m dest pc o := by
  cases rest with
  | arrived hreaches hpos hagree hpc' hsteps' =>
    exact .arrived (first.trans hreaches) hpos hagree hpc' (hsteps'.trans hsteps)
  | escaped hescapes hserves hsteps' =>
    obtain ⟨n, hn⟩ := hescapes.of_reaches first
    rw [hpc]
    exact .escaped hn hserves (hsteps'.trans hsteps)

namespace Agree

variable {program : List UInt8} {s : Plain.State} {m : Machine}

/-- A machine that gives up before it reads or writes anything. -/
theorem follows_escape (agree : Agree s m) {dest pc : Nat} {cell : Int}
    (escapes : ∃ n t, Plain.Escapes program s n t ∧ t.unread = s.unread ∧
      t.written = s.written) :
    Follows program s m dest pc (.failed (.offTape m.pc cell) m) := by
  obtain ⟨n, t, hescapes, hunread, hwritten⟩ := escapes
  refine .escaped hescapes ?_ rfl
  rw [hunread, hwritten]
  exact agree.console

theorem cell (agree : Agree s m) : m.cell = s.cell := by
  rw [Machine.cell, Plain.State.cell, agree.tape, agree.ptr]

theorem setCell (agree : Agree s m) (v : UInt8) : Agree (s.setCell v) (m.setCell v) := by
  refine ⟨?_, agree.ptr, ?_, agree.console⟩
  · show m.tape.set m.ptr v = s.tape.set s.ptr v
    rw [agree.tape, agree.ptr]
  · simpa [Plain.State.setCell] using agree.onTape

theorem goto (agree : Agree s m) (pos : Nat) : Agree (s.goto pos) m :=
  ⟨agree.tape, agree.ptr, agree.onTape, agree.console⟩

theorem jump (agree : Agree s m) (target : Nat) : Agree s (m.jump target) :=
  ⟨agree.tape, agree.ptr, agree.onTape, agree.console⟩

theorem tick (agree : Agree s m) : Agree s m.tick :=
  ⟨agree.tape, agree.ptr, agree.onTape, agree.console⟩

/-! ## Moves -/

theorem locate_ok (agree : Agree s m) {d : Int} {i : Nat} (h : s.locate d = some i) :
    m.locate d = .ok i := by
  obtain ⟨hsize, hi⟩ := Plain.State.locate_eq_some_iff.mp h
  have htarget : 0 ≤ (m.ptr : Int) + d ∧ (m.ptr : Int) + d < m.tape.size := by
    rw [agree.tape, agree.ptr]
    omega
  simp only [Machine.locate, if_pos htarget]
  rw [agree.ptr, ← hi, Int.toNat_natCast]

theorem locate_error (agree : Agree s m) {d : Int} (h : s.locate d = none) :
    ∃ cell, m.locate d = .error (.offTape m.pc cell) := by
  refine ⟨clampOffset (reach m.ptr + d), ?_⟩
  have htarget : ¬(0 ≤ (m.ptr : Int) + d ∧ (m.ptr : Int) + d < m.tape.size) := by
    intro hin
    rw [agree.tape, agree.ptr] at hin
    simp [Plain.State.locate, hin] at h
  simp only [Machine.locate, if_neg htarget]

theorem moved (agree : Agree s m) {d : Int} {i : Nat} (h : s.locate d = some i) :
    Agree { s with ptr := i } { m with ptr := i } :=
  ⟨agree.tape, rfl, (Plain.State.locate_eq_some_iff.mp h).1, agree.console⟩

theorem move (agree : Agree s m) (d : Int) :
    (∃ t m', s.moveBy d = some t ∧ m.move d = .done () m' ∧ Agree t m' ∧
      m'.pc = m.pc ∧ m'.steps = m.steps) ∨
    ∃ cell, s.moveBy d = none ∧ m.move d = .failed (.offTape m.pc cell) m := by
  cases h : s.locate d with
  | some i =>
    refine .inl ⟨{ s with ptr := i }, { m with ptr := i }, ?_, ?_, agree.moved h, rfl, rfl⟩
    · rw [Plain.State.moveBy, h]
      rfl
    · rw [Machine.move, agree.locate_ok h]
  | none =>
    obtain ⟨cell, hcell⟩ := agree.locate_error h
    refine .inr ⟨cell, ?_, ?_⟩
    · rw [Plain.State.moveBy, h]
      rfl
    · rw [Machine.move, hcell]

/-! ## Runs -/

theorem writeCell (agree : Agree s m) (n : Nat) :
    ∃ t m', s.acts (List.replicate n .write) = some t ∧ m.writeCell n = .done () m' ∧
      Agree t m' ∧ m'.pc = m.pc ∧ m'.steps = m.steps := by
  induction n generalizing s m with
  | zero => exact ⟨s, m, rfl, rfl, agree, rfl, rfl⟩
  | succ n ih =>
    obtain ⟨c, hput, hserves⟩ := agree.console.putByte m.cell
    rw [agree.cell] at hserves
    have hnext : Agree { s with written := s.written ++ [s.cell] } { m with console := c } :=
      ⟨agree.tape, agree.ptr, agree.onTape, hserves⟩
    obtain ⟨t, m', hacts, hwrite, hagree, hpc, hsteps⟩ := ih hnext
    refine ⟨t, m', hacts, ?_, hagree, hpc, hsteps⟩
    rw [Machine.writeCell, hput]
    show Machine.writeCell n { m with console := c } = _
    exact hwrite

theorem readCell (agree : Agree s m) (n : Nat) :
    ∃ t m', s.acts (List.replicate n .read) = some t ∧ m.readCell n = .done () m' ∧
      Agree t m' ∧ m'.pc = m.pc ∧ m'.steps = m.steps := by
  induction n generalizing s m with
  | zero => exact ⟨s, m, rfl, rfl, agree, rfl, rfl⟩
  | succ n ih =>
    obtain ⟨c, hget, hserves⟩ := agree.console.getByte
    cases hunread : s.unread with
    | nil =>
      -- the machine gives up, the plain run asks in vain
      rw [hunread] at hget hserves
      refine ⟨s, { m with console := c }, Plain.State.acts_read_of_nil _ hunread, ?_,
        ⟨agree.tape, agree.ptr, agree.onTape, ?_⟩, rfl, rfl⟩
      · rw [Machine.readCell, hget]
        rfl
      · rw [hunread]
        exact hserves
    | cons b rest =>
      rw [hunread] at hget hserves
      have hnext : Agree { s.setCell b with unread := rest }
          { m with tape := m.tape.set m.ptr b, console := c } :=
        ⟨(agree.setCell b).tape, agree.ptr, (agree.setCell b).onTape, hserves⟩
      obtain ⟨t, m', hacts, hread, hagree, hpc, hsteps⟩ := ih hnext
      have hact : s.act .read = some { s.setCell b with unread := rest } := by
        simp [Plain.State.act, hunread]
      refine ⟨t, m', ?_, ?_, hagree, hpc, hsteps⟩
      · rw [List.replicate_succ, Plain.State.acts, hact]
        exact hacts
      · rw [Machine.readCell, hget]
        show Machine.readCell n { m with tape := m.tape.set m.ptr b, console := c } = _
        exact hread

/-- Doing an action `n` times at once is doing it `n` times. -/
theorem act (agree : Agree s m) {n : Nat} (short : n ≤ offsetMax) (a : Action) :
    (∃ t m', s.acts (List.replicate n a) = some t ∧ m.act n a = .done () m' ∧ Agree t m' ∧
      m'.pc = m.pc ∧ m'.steps = m.steps) ∨
    ∃ cell, s.acts (List.replicate n a) = none ∧ m.act n a = .failed (.offTape m.pc cell) m ∧
      a ≠ .read ∧ a ≠ .write := by
  cases a with
  | right =>
    have hacts := Plain.State.acts_right n agree.onTape
    rw [hacts, Machine.act, reach_of_le short]
    rcases agree.move n with hmoved | ⟨cell, hnone, hfailed⟩
    · exact .inl hmoved
    · exact .inr ⟨cell, hnone, hfailed, by simp, by simp⟩
  | left =>
    have hacts := Plain.State.acts_left n agree.onTape
    rw [hacts, Machine.act, reach_of_le short]
    rcases agree.move (-n) with hmoved | ⟨cell, hnone, hfailed⟩
    · exact .inl hmoved
    · exact .inr ⟨cell, hnone, hfailed, by simp, by simp⟩
  | inc =>
    refine .inl ⟨_, _, Plain.State.acts_inc n agree.onTape, rfl, ?_, rfl, rfl⟩
    rw [agree.cell]
    exact agree.setCell _
  | dec =>
    refine .inl ⟨_, _, Plain.State.acts_dec n agree.onTape, rfl, ?_, rfl, rfl⟩
    rw [agree.cell]
    exact agree.setCell _
  | write => exact .inl (agree.writeCell n)
  | read => exact .inl (agree.readCell n)

theorem follows_run (agree : Agree s m) {a : Action} {n : Nat} {rest : List UInt8}
    (positive : 0 < n) (short : n ≤ offsetMax)
    (text : program.drop s.pos = List.replicate n a.byte ++ rest) :
    Follows program s m (s.pos + n) m.pc (m.act n a) := by
  rw [← List.map_replicate] at text
  rcases agree.act short a with ⟨t, m', hacts, hact, hagree, hpc, hsteps⟩ |
    ⟨cell, hacts, hact, hread, hwrite⟩
  · have hafter := Plain.after_acts text hacts
    rw [List.length_replicate] at hafter
    rw [hact]
    exact .arrived ⟨n, positive, hafter⟩ rfl (hagree.goto _) hpc hsteps
  · have hquiet : ∀ b ∈ List.replicate n a, b ≠ .read ∧ b ≠ .write := by
      intro b hb
      rw [List.eq_of_mem_replicate hb]
      exact ⟨hread, hwrite⟩
    rw [hact]
    exact agree.follows_escape (Plain.escapes_acts text hacts hquiet)

/-! ## Brackets -/

section Brackets

variable {first last : Nat} {body : List UInt8}

theorem follows_exit (agree : Agree s m) (loop : Plain.Loop program first last body)
    (test : s.pos = first ∨ s.pos = last) (hzero : s.cell = 0) (target : Nat) :
    Follows program s m (last + 1) target (.done () (m.jump target)) :=
  .arrived (loop.reaches_exit test hzero) rfl ((agree.goto _).jump target) rfl rfl

theorem follows_body (agree : Agree s m) (loop : Plain.Loop program first last body)
    (test : s.pos = first ∨ s.pos = last) (hcell : s.cell ≠ 0) (target : Nat) :
    Follows program s m (first + 1) target (.done () (m.jump target)) :=
  .arrived (loop.reaches_body test hcell) rfl ((agree.goto _).jump target) rfl rfl

end Brackets

/-! ## Fused loops -/

section Fused

variable {last : Nat} {actions : List Action} {d : Int}

/-- A scan and the loop that it stands for move in step. The measure is the
number of cells that lie ahead. -/
theorem follows_scanFor {first : Nat} (agree : Agree s m)
    (loop : Plain.Loop program first last (actions.map Action.byte))
    (round : ∀ u : Plain.State, u.ptr < u.tape.size → u.acts actions = u.moveBy d)
    (quiet : ∀ a ∈ actions, a ≠ .read ∧ a ≠ .write) (test : s.pos = first ∨ s.pos = last)
    {fuel : Nat} (ahead : 0 < d ∧ s.tape.size ≤ s.ptr + fuel ∨ d < 0 ∧ s.ptr < fuel) :
    Follows program s m (last + 1) m.pc (m.scanFor d fuel) := by
  induction fuel generalizing s m with
  | zero =>
    have := agree.onTape
    omega
  | succ fuel ih =>
    rw [Machine.scanFor]
    by_cases hcell : m.cell = 0
    · rw [if_pos hcell]
      rw [agree.cell] at hcell
      exact .arrived (loop.reaches_exit test hcell) rfl (agree.goto _) rfl rfl
    · rw [if_neg hcell]
      rw [agree.cell] at hcell
      have hround := round s agree.onTape
      cases hlocate : s.locate d with
      | some i =>
        rw [Plain.State.moveBy, hlocate] at hround
        obtain ⟨hsize, hi⟩ := Plain.State.locate_eq_some_iff.mp hlocate
        have hnext : Agree (Plain.State.goto { s with ptr := i } last) { m with ptr := i } :=
          (agree.moved hlocate).goto last
        have hfollows := ih hnext (.inr rfl) (by
          show 0 < d ∧ s.tape.size ≤ i + fuel ∨ d < 0 ∧ i < fuel
          omega)
        have hreaches := loop.reaches_round test hcell hround
        rw [agree.locate_ok hlocate]
        exact hfollows.of_reaches hreaches rfl rfl
      | none =>
        rw [Plain.State.moveBy, hlocate] at hround
        obtain ⟨cell, herror⟩ := agree.locate_error hlocate
        rw [herror]
        exact agree.follows_escape (loop.escapes_round test hcell hround quiet)

theorem follows_scan (agree : Agree s m) {a : Action} {n : Nat}
    (loop : Plain.Loop program s.pos last (List.replicate n a.byte))
    (round : ∀ u : Plain.State, u.ptr < u.tape.size →
      u.acts (List.replicate n a) = u.moveBy d)
    (quiet : a ≠ .read ∧ a ≠ .write) (hd : d ≠ 0) :
    Follows program s m (last + 1) m.pc (m.scan d) := by
  have hquiet : ∀ b ∈ List.replicate n a, b ≠ .read ∧ b ≠ .write := by
    intro b hb
    rw [List.eq_of_mem_replicate hb]
    exact quiet
  rw [← List.map_replicate] at loop
  -- the fuel is the length of the tape, and no more cells can lie ahead
  apply agree.follows_scanFor loop round hquiet (.inl rfl)
  have := agree.onTape
  rw [agree.tape]
  omega

theorem follows_transfer (agree : Agree s m) {a b : Action} {k : Nat}
    (loop : Plain.Loop program s.pos last
      ((.dec :: (List.replicate k a ++ .inc :: List.replicate k b)).map Action.byte))
    (hthere : ∀ u : Plain.State, u.ptr < u.tape.size →
      u.acts (List.replicate k a) = u.moveBy d)
    (hback : ∀ u : Plain.State, u.ptr < u.tape.size →
      u.acts (List.replicate k b) = u.moveBy (-d))
    (quiet : (a ≠ .read ∧ a ≠ .write) ∧ b ≠ .read ∧ b ≠ .write) (hd : d ≠ 0) :
    Follows program s m (last + 1) m.pc (m.transfer d) := by
  have round : ∀ u : Plain.State, u.ptr < u.tape.size →
      u.acts (.dec :: (List.replicate k a ++ .inc :: List.replicate k b)) =
        (u.locate d).map u.giveOne := fun u => Plain.State.acts_give hd hthere hback
  unfold Machine.transfer
  rw [agree.cell]
  by_cases hcell : s.cell = 0
  · -- nothing to give: the other cell may be anywhere
    simp only [if_pos hcell]
    exact .arrived (loop.reaches_exit (.inl rfl) hcell) rfl (agree.goto _) rfl rfl
  · simp only [if_neg hcell]
    cases hlocate : s.locate d with
    | some i =>
      rw [agree.locate_ok hlocate]
      refine .arrived (loop.reaches_give round hd (.inl rfl) agree.onTape hlocate) rfl ?_ rfl rfl
      refine ⟨?_, agree.ptr, ?_, agree.console⟩
      · simp only [Plain.State.giveAll, Plain.State.goto, agree.tape, agree.ptr]
      · simpa [Plain.State.giveAll, Plain.State.goto] using agree.onTape
    | none =>
      have hround := round s agree.onTape
      have hquiet : ∀ c ∈ Action.dec :: (List.replicate k a ++ .inc :: List.replicate k b),
          c ≠ .read ∧ c ≠ .write := by
        intro c hc
        simp only [List.mem_cons, List.mem_append, List.mem_replicate] at hc
        rcases hc with rfl | ⟨-, rfl⟩ | rfl | ⟨-, rfl⟩
        · simp
        · exact quiet.1
        · simp
        · exact quiet.2
      rw [hlocate] at hround
      obtain ⟨cell, herror⟩ := agree.locate_error hlocate
      rw [herror]
      exact agree.follows_escape (loop.escapes_round (.inl rfl) hcell hround hquiet)

theorem follows_clear (agree : Agree s m) {a : Action} {n : Nat} (positive : 0 < n)
    (loop : Plain.Loop program s.pos last (List.replicate n a.byte)) (ha : a = .inc ∨ a = .dec) :
    Follows program s m (last + 1) m.pc (.done () (m.setCell 0)) ∨ Plain.Spins program s := by
  by_cases h : n.gcd 256 ∣ s.cell.toNat
  · have hreaches := loop.reaches_clear ha (.inl rfl) agree.onTape h
    exact .inl (.arrived hreaches rfl ((agree.setCell 0).goto _) rfl rfl)
  · obtain ⟨rest, htext⟩ := loop.text
    exact .inr ⟨a, n, rest, ha, positive, htext, h⟩

/-- A fused loop follows its text, unless the text spins. -/
theorem follows_idiom (agree : Agree s m) {body : List Op} {op : Op} (idiom : Op.Idiom body op)
    (positive : ∀ a n, .run a n ∈ body → 0 < n)
    (loop : Plain.Loop program s.pos last (body.flatMap Op.spell)) :
    Follows program s m (last + 1) m.pc (m.exec op) ∨ Plain.Spins program s := by
  cases idiom with
  | adding n =>
    have hn := positive .inc n (by simp)
    exact agree.follows_clear hn (by simpa [Op.spell] using loop) (.inl rfl)
  | subtracting n =>
    have hn := positive .dec n (by simp)
    exact agree.follows_clear hn (by simpa [Op.spell] using loop) (.inr rfl)
  | scanRight n =>
    have hn := positive .right n (by simp)
    exact .inl (agree.follows_scan (by simpa [Op.spell] using loop)
      (fun u => Plain.State.acts_right n) (by simp) (by omega))
  | scanLeft n =>
    have hn := positive .left n (by simp)
    exact .inl (agree.follows_scan (by simpa [Op.spell] using loop)
      (fun u => Plain.State.acts_left n) (by simp) (by omega))
  | giveRight k =>
    have hk := positive .right k (by simp)
    exact .inl (agree.follows_transfer (by simpa [Op.spell] using loop)
      (fun u => Plain.State.acts_right k) (fun u => Plain.State.acts_left k)
      (by simp) (by omega))
  | giveLeft k =>
    have hk := positive .left k (by simp)
    refine .inl (agree.follows_transfer (by simpa [Op.spell] using loop)
      (fun u => Plain.State.acts_left k) ?_ (by simp) (by omega))
    intro u hon
    rw [Int.neg_neg]
    exact Plain.State.acts_right k hon

end Fused

end Agree

end Brainfuck
