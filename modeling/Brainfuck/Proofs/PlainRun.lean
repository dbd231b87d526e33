import Brainfuck.Proofs.Brackets

/-!
# Plain runs

Facts about executing a text byte by byte that are shared by all programs:

* **counted runs** — `after` over a sum, and `Reaches`, a run of at least one
  byte;
* **straight lines** — a text without brackets does its actions in order
  (`after_acts`), or leaves the tape on the way (`escapes_acts`);
* **loops** — both brackets of a loop make the same test: a zero cell goes
  on behind the loop, any other value goes on in front of the body
  (`Loop.step_eq`). One round of a straight body is `Loop.reaches_round`;
* **endless runs** — a run that can always go on does so for every number of
  bytes (`endless_of_progress`).
-/

namespace Brainfuck.Plain

variable {program : List UInt8} {s t u : State}

/-! ## Counted runs -/

theorem after_add (program : List UInt8) (a b : Nat) (s : State) :
    after program (a + b) s = (after program a s).bind (after program b) := by
  induction a generalizing s with
  | zero => simp [after]
  | succ a ih =>
    rw [Nat.succ_add, after, after]
    cases hstep : step program s with
    | moved t => exact ih t
    | halted => rfl
    | escaped => rfl
    | stuck => rfl

theorem exists_after_of_le {n k : Nat} (h : after program n s = some t) (hle : k ≤ n) :
    ∃ u, after program k s = some u := by
  have hsplit := after_add program k (n - k) s
  rw [Nat.add_sub_cancel' hle, h] at hsplit
  cases hk : after program k s with
  | none =>
    rw [hk] at hsplit
    cases hsplit
  | some u => exact ⟨u, rfl⟩

/-- The run comes from one state to another by executing at least one byte. -/
def Reaches (program : List UInt8) (s t : State) : Prop :=
  ∃ n, 0 < n ∧ after program n s = some t

theorem Reaches.of_step (h : step program s = .moved t) : Reaches program s t := by
  refine ⟨1, Nat.one_pos, ?_⟩
  rw [after, h]
  rfl

theorem Reaches.trans (first : Reaches program s t) (second : Reaches program t u) :
    Reaches program s u := by
  obtain ⟨n, hn, hfirst⟩ := first
  obtain ⟨k, -, hsecond⟩ := second
  refine ⟨n + k, by omega, ?_⟩
  rw [after_add, hfirst]
  show after program k t = some u
  exact hsecond

theorem Escapes.of_after {n k : Nat} (first : after program n s = some t)
    (second : Escapes program t k u) : Escapes program s (n + k) u := by
  refine ⟨?_, second.2⟩
  rw [after_add, first]
  show after program k t = some u
  exact second.1

theorem Escapes.of_reaches {k : Nat} (first : Reaches program s t)
    (second : Escapes program t k u) : ∃ n, Escapes program s n u := by
  obtain ⟨n, -, hfirst⟩ := first
  exact ⟨n + k, second.of_after hfirst⟩

/-- A run that ends in `u` goes through every state it reaches. -/
theorem after_of_stop {n k : Nat} (ends : after program n s = some u)
    (stops : ∀ v, step program u ≠ .moved v) (h : after program k s = some t) :
    k ≤ n ∧ after program (n - k) t = some u := by
  by_cases hle : k ≤ n
  · refine ⟨hle, ?_⟩
    have hsplit := after_add program k (n - k) s
    rw [Nat.add_sub_cancel' hle, ends, h] at hsplit
    exact hsplit.symm
  · -- otherwise the run would go on behind its end
    exfalso
    obtain ⟨j, rfl⟩ : ∃ j, k = n + (j + 1) := ⟨k - n - 1, by omega⟩
    rw [after_add, ends] at h
    change after program (j + 1) u = some t at h
    rw [after] at h
    split at h
    · rename_i v hstep
      exact stops v hstep
    · cases h

/-- A run has one end. -/
theorem stop_unique {n k : Nat} (ends : after program n s = some t)
    (stops : ∀ v, step program t ≠ .moved v) (ends' : after program k s = some u)
    (stops' : ∀ v, step program u ≠ .moved v) : n = k ∧ t = u := by
  obtain ⟨hle, hrest⟩ := after_of_stop ends stops ends'
  obtain ⟨hle', -⟩ := after_of_stop ends' stops' ends
  have hsame : n = k := Nat.le_antisymm hle' hle
  subst hsame
  rw [ends] at ends'
  exact ⟨rfl, Option.some.inj ends'⟩

/-! ## Endless runs -/

/-- The run never ends. -/
def Endless (program : List UInt8) (s : State) : Prop := ∀ n, ∃ t, after program n s = some t

theorem Endless.not_stops (endless : Endless program s) {n : Nat}
    (h : after program n s = some t) : ∃ u, step program t = .moved u := by
  obtain ⟨v, hv⟩ := endless (n + 1)
  rw [after_add, h] at hv
  change after program 1 t = some v at hv
  rw [after] at hv
  split at hv
  · rename_i u hstep
    exact ⟨u, hstep⟩
  · cases hv

theorem Endless.of_after {n : Nat} (first : after program n s = some t)
    (endless : Endless program t) : Endless program s := by
  intro k
  by_cases hle : k ≤ n
  · exact exists_after_of_le first hle
  · obtain ⟨u, hu⟩ := endless (k - n)
    refine ⟨u, ?_⟩
    rw [← Nat.add_sub_cancel' (Nat.le_of_not_le hle), after_add, first]
    show after program (k - n) t = some u
    exact hu

/-- A property that holds again and again keeps a run going. -/
theorem endless_of_progress {P : State → Prop}
    (progress : ∀ s, P s → ∃ t, Reaches program s t ∧ P t) (hs : P s) : Endless program s := by
  intro n
  induction n using Nat.strongRecOn generalizing s with
  | ind n ih =>
    obtain ⟨t, ⟨k, hk, hreach⟩, ht⟩ := progress s hs
    by_cases hle : k ≤ n
    · obtain ⟨u, hu⟩ := ih (n - k) (by omega) ht
      refine ⟨u, ?_⟩
      rw [← Nat.add_sub_cancel' hle, after_add, hreach]
      show after program (n - k) t = some u
      exact hu
    · exact exists_after_of_le hreach (Nat.le_of_not_le hle)

/-! ## Straight lines -/

namespace State

/-- The state at another position of the program. -/
def goto (s : State) (pos : Nat) : State := { s with pos := pos }

/-- Do actions in order; there is no outcome if one of them leaves the tape. -/
def acts (s : State) : List Action → Option State
  | [] => some s
  | a :: rest => (s.act a).bind fun t => t.acts rest

theorem acts_append (s : State) (front back : List Action) :
    s.acts (front ++ back) = (s.acts front).bind fun t => t.acts back := by
  induction front generalizing s with
  | nil => rfl
  | cons a front ih =>
    rw [List.cons_append, acts, acts]
    cases s.act a with
    | none => rfl
    | some t => exact ih t

/-- Actions do not look at the position. -/
theorem act_goto (s : State) (pos : Nat) (a : Action) :
    (s.goto pos).act a = (s.act a).map (·.goto pos) := by
  cases a with
  | right => by_cases h : s.ptr + 1 < s.tape.size <;> simp [act, goto, h]
  | left => by_cases h : 0 < s.ptr <;> simp [act, goto, h]
  | inc => rfl
  | dec => rfl
  | write => rfl
  | read =>
    simp only [act, goto]
    split <;> rfl

theorem acts_goto (s : State) (pos : Nat) (actions : List Action) :
    (s.goto pos).acts actions = (s.acts actions).map (·.goto pos) := by
  induction actions generalizing s with
  | nil => rfl
  | cons a rest ih =>
    rw [acts, acts, act_goto]
    cases s.act a with
    | none => rfl
    | some t => exact ih t

/-- Only reading and writing can be noticed from outside. -/
theorem act_quiet {s t : State} {a : Action} (h : s.act a = some t) (hread : a ≠ .read)
    (hwrite : a ≠ .write) : t.unread = s.unread ∧ t.written = s.written := by
  cases a with
  | right =>
    simp only [act] at h
    split at h <;> cases h
    exact ⟨rfl, rfl⟩
  | left =>
    simp only [act] at h
    split at h <;> cases h
    exact ⟨rfl, rfl⟩
  | inc =>
    cases h
    exact ⟨rfl, rfl⟩
  | dec =>
    cases h
    exact ⟨rfl, rfl⟩
  | write => exact absurd rfl hwrite
  | read => exact absurd rfl hread

end State

/-- Executing the byte of an action. -/
theorem step_act {a : Action} {rest : List UInt8}
    (text : program.drop s.pos = a.byte :: rest) :
    step program s = match s.act a with
      | some t => .moved (t.goto (s.pos + 1))
      | none => .escaped := by
  have hbyte : program[s.pos]? = some a.byte := by
    rw [← List.head?_drop, text]
    rfl
  have hinstr : Instr.ofByte? a.byte = some (.act a) := Instr.ofByte?_byte (.act a)
  simp only [step, hbyte, hinstr]
  rfl

private theorem drop_succ_of_drop {pos : Nat} {b : UInt8} {rest : List UInt8}
    (h : program.drop pos = b :: rest) : program.drop (pos + 1) = rest := by
  rw [← List.tail_drop, h]
  rfl

/-- A straight text does its actions. -/
theorem after_acts {actions : List Action} {rest : List UInt8}
    (text : program.drop s.pos = actions.map Action.byte ++ rest) (h : s.acts actions = some t) :
    after program actions.length s = some (t.goto (s.pos + actions.length)) := by
  induction actions generalizing s t with
  | nil =>
    cases h
    rfl
  | cons a actions ih =>
    rw [List.map_cons, List.cons_append] at text
    rw [State.acts] at h
    cases hact : s.act a with
    | none =>
      rw [hact] at h
      cases h
    | some u =>
      rw [hact] at h
      have hrest : (u.goto (s.pos + 1)).acts actions = some (t.goto (s.pos + 1)) := by
        rw [State.acts_goto]
        exact congrArg _ h
      have hih := ih (s := u.goto (s.pos + 1)) (drop_succ_of_drop text) hrest
      rw [List.length_cons, after, step_act text, hact]
      show after program actions.length (u.goto (s.pos + 1)) = _
      rw [hih]
      simp [State.goto, Nat.add_assoc, Nat.add_comm 1]

/-- A straight text whose actions leave the tape leaves it, and without having
read or written anything if none of the actions does. -/
theorem escapes_acts {actions : List Action} {rest : List UInt8}
    (text : program.drop s.pos = actions.map Action.byte ++ rest) (h : s.acts actions = none)
    (quiet : ∀ a ∈ actions, a ≠ .read ∧ a ≠ .write) :
    ∃ n t, Escapes program s n t ∧ t.unread = s.unread ∧ t.written = s.written := by
  induction actions generalizing s with
  | nil => cases h
  | cons a actions ih =>
    rw [List.map_cons, List.cons_append] at text
    rw [State.acts] at h
    cases hact : s.act a with
    | none =>
      refine ⟨0, s, ⟨rfl, ?_⟩, rfl, rfl⟩
      rw [step_act text, hact]
    | some u =>
      rw [hact] at h
      have hrest : (u.goto (s.pos + 1)).acts actions = none := by
        rw [State.acts_goto]
        exact congrArg _ h
      have hstep : after program 1 s = some (u.goto (s.pos + 1)) := by
        rw [after, step_act text, hact]
        rfl
      obtain ⟨n, t, hescapes, hunread, hwritten⟩ :=
        ih (s := u.goto (s.pos + 1)) (drop_succ_of_drop text) hrest
          (fun b hb => quiet b (List.mem_cons_of_mem _ hb))
      have hquiet := quiet a List.mem_cons_self
      have hact' := State.act_quiet hact hquiet.1 hquiet.2
      refine ⟨1 + n, t, hescapes.of_after hstep, ?_, ?_⟩
      · exact hunread.trans hact'.1
      · exact hwritten.trans hact'.2

/-! ## Loops -/

/-- The bytes at `first` and `last` are the brackets of a loop around `body`. -/
structure Loop (program : List UInt8) (first last : Nat) (body : List UInt8) : Prop where
  text : ∃ rest, program.drop first = Op.bracket body ++ rest
  length : last = first + 1 + body.length
  closing : closing? program first = some last
  opening : opening? program last = some first

/-- A loop of the block structure is a loop of the text. -/
theorem loop_bracket (front back : List UInt8) (body : Block) :
    Loop (front ++ (Op.bracket body.source ++ back)) front.length
      (front.length + 1 + body.source.length) body.source := by
  refine ⟨⟨back, ?_⟩, rfl, closing?_bracket front back body, opening?_bracket front back body⟩
  rw [List.drop_append_of_le_length (Nat.le_refl _), List.drop_length, List.nil_append]

namespace Loop

variable {first last : Nat} {body : List UInt8} {actions : List Action}

theorem opens (loop : Loop program first last body) :
    program[first]? = some Instr.opening.byte := by
  obtain ⟨rest, htext⟩ := loop.text
  rw [← List.head?_drop, htext]
  rfl

theorem closes (loop : Loop program first last body) :
    program[last]? = some Instr.closing.byte := by
  obtain ⟨rest, htext⟩ := loop.text
  rw [loop.length, Nat.add_assoc, ← List.getElem?_drop, htext]
  simp [Op.bracket, Nat.add_comm 1]

theorem body_text (loop : Loop program first last body) :
    ∃ rest, program.drop (first + 1) = body ++ rest := by
  obtain ⟨rest, htext⟩ := loop.text
  refine ⟨Instr.closing.byte :: rest, ?_⟩
  rw [← List.tail_drop, htext]
  simp [Op.bracket]

/-- Both brackets make the same test. -/
theorem step_eq (loop : Loop program first last body) (test : s.pos = first ∨ s.pos = last) :
    step program s = .moved (s.goto (if s.cell = 0 then last + 1 else first + 1)) := by
  have hopening : Instr.ofByte? Instr.opening.byte = some .opening := rfl
  have hclosing : Instr.ofByte? Instr.closing.byte = some .closing := rfl
  rcases test with hpos | hpos
  · simp only [step, hpos, loop.opens, hopening, loop.closing]
    by_cases hzero : s.cell = 0
    · simp [hzero, State.behind, State.goto]
    · simp [hzero, State.behind, State.goto]
  · simp only [step, hpos, loop.closes, hclosing, loop.opening]
    by_cases hzero : s.cell = 0
    · simp [hzero, State.behind, State.goto]
    · simp [hzero, State.behind, State.goto]

theorem reaches_exit (loop : Loop program first last body)
    (test : s.pos = first ∨ s.pos = last) (hzero : s.cell = 0) :
    Reaches program s (s.goto (last + 1)) := by
  apply Reaches.of_step
  rw [loop.step_eq test, if_pos hzero]

theorem reaches_body (loop : Loop program first last body)
    (test : s.pos = first ∨ s.pos = last) (hcell : s.cell ≠ 0) :
    Reaches program s (s.goto (first + 1)) := by
  apply Reaches.of_step
  rw [loop.step_eq test, if_neg hcell]

/-- One round of a straight loop. -/
theorem reaches_round (loop : Loop program first last (actions.map Action.byte))
    (test : s.pos = first ∨ s.pos = last) (hcell : s.cell ≠ 0) (h : s.acts actions = some t) :
    Reaches program s (t.goto last) := by
  obtain ⟨rest, htext⟩ := loop.body_text
  obtain ⟨n, hn, henter⟩ := loop.reaches_body test hcell
  have hbody : after program actions.length (s.goto (first + 1)) = some (t.goto last) := by
    have hacts : (s.goto (first + 1)).acts actions = some (t.goto (first + 1)) := by
      rw [State.acts_goto, h]
      rfl
    have hlast := loop.length
    rw [List.length_map] at hlast
    rw [hlast]
    exact after_acts (s := s.goto (first + 1)) (t := t.goto (first + 1)) htext hacts
  refine ⟨n + actions.length, by omega, ?_⟩
  rw [after_add, henter]
  show after program actions.length (s.goto (first + 1)) = some (t.goto last)
  exact hbody

/-- A straight loop that leaves the tape in its first round. -/
theorem escapes_round (loop : Loop program first last (actions.map Action.byte))
    (test : s.pos = first ∨ s.pos = last) (hcell : s.cell ≠ 0) (h : s.acts actions = none)
    (quiet : ∀ a ∈ actions, a ≠ .read ∧ a ≠ .write) :
    ∃ n t, Escapes program s n t ∧ t.unread = s.unread ∧ t.written = s.written := by
  obtain ⟨rest, htext⟩ := loop.body_text
  have hacts : (s.goto (first + 1)).acts actions = none := by
    rw [State.acts_goto, h]
    rfl
  obtain ⟨n, t, hescapes, hunread, hwritten⟩ :=
    escapes_acts (s := s.goto (first + 1)) htext hacts quiet
  obtain ⟨k, hk⟩ := hescapes.of_reaches (loop.reaches_body test hcell)
  exact ⟨k, t, hk, hunread, hwritten⟩

end Loop

end Brainfuck.Plain
