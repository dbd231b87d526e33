import Brainfuck.Proofs.Draft
import Mathlib.Data.List.Basic

/-!
# What the log of the compiler says

The compiler announces a fused loop at once, while the array can still be cut
off behind any open bracket. What it announced stays true all the same. Only
runs are ever cut off, so a fused operation is never moved, replaced or
removed:

* **one list of operations** — `Op.fusedFrom` are the fused operations with
  their indices. A loop that is fused adds one at its end, and a loop that is
  not changes nothing (`Op.fusedFrom_enclose_of_some`,
  `Op.fusedFrom_enclose_of_none`);
* **one token** — if the log announces the fused operations of a draft, it does
  so after the next token (`Announces.quiet`, `Announces.fuse`,
  `Draft.announces_leave`);
* **the whole text** — `Told` is what can be said about the log in the end, and
  `Draft.Reads.told` shows it by induction over the tokens.

The main result is `log_announces_fused_loops`.
-/

namespace Brainfuck

/-! ## Fused operations and their indices -/

namespace Op

/-- Whether the operation does the work of a whole loop. -/
def isFused : Op → Bool
  | .clear | .scan _ | .transfer _ => true
  | _ => false

/-- The fused operations of a list whose first operation has index `i`, with
their indices and in this order. -/
def fusedFrom (i : Nat) (ops : List Op) : List (Op × Nat) :=
  (ops.zipIdx i).filter fun x => x.1.isFused

theorem Idiom.isFused {ops : List Op} {op : Op} (h : Idiom ops op) : op.isFused = true := by
  cases h <;> rfl

theorem isFused_of_isRun {op : Op} (h : op.isRun = true) : op.isFused = false := by
  cases op with
  | run a n => rfl
  | _ => cases h

theorem fusedFrom_append (i : Nat) (front back : List Op) :
    fusedFrom i (front ++ back) = fusedFrom i front ++ fusedFrom (i + front.length) back := by
  rw [fusedFrom, List.zipIdx_append, List.filter_append]
  rfl

theorem fusedFrom_cons_of_not_isFused {op : Op} (h : op.isFused = false) (i : Nat)
    (ops : List Op) : fusedFrom i (op :: ops) = fusedFrom (i + 1) ops := by
  simp [fusedFrom, List.zipIdx_cons, h]

theorem fusedFrom_singleton {op : Op} (h : op.isFused = true) (i : Nat) :
    fusedFrom i [op] = [(op, i)] := by
  simp [fusedFrom, h]

/-- An operation at the end that is not fused does not count. -/
theorem fusedFrom_concat {op : Op} (h : op.isFused = false) (i : Nat) (ops : List Op) :
    fusedFrom i (ops ++ [op]) = fusedFrom i ops := by
  rw [fusedFrom_append, fusedFrom_cons_of_not_isFused h]
  exact List.append_nil _

theorem fusedFrom_of_isRun {ops : List Op} (runs : ∀ o ∈ ops, o.isRun = true) (i : Nat) :
    fusedFrom i ops = [] := by
  induction ops generalizing i with
  | nil => rfl
  | cons op ops ih =>
    rw [fusedFrom_cons_of_not_isFused (isFused_of_isRun (runs op List.mem_cons_self))]
    exact ih (fun o ho => runs o (List.mem_cons_of_mem op ho)) (i + 1)

/-- A loop that stays has the fused operations of its body. -/
theorem fusedFrom_enclose_of_none {inner : List Op} (h : fuse? inner = none) (i slot : Nat) :
    fusedFrom i (enclose slot inner) = fusedFrom i (.jumpZero 0 :: inner) := by
  rw [enclose_of_none h, fusedFrom_concat rfl, fusedFrom_cons_of_not_isFused rfl,
    fusedFrom_cons_of_not_isFused rfl]

/-- A loop that is fused had none in its body, and is one itself. -/
theorem fusedFrom_enclose_of_some {inner : List Op} {op : Op} (h : fuse? inner = some op)
    (i slot : Nat) : fusedFrom i (.jumpZero 0 :: inner) = [] ∧
      fusedFrom i (enclose slot inner) = [(op, i)] := by
  have idiom := idiom_of_fuse? h
  refine ⟨?_, ?_⟩
  · rw [fusedFrom_cons_of_not_isFused rfl, fusedFrom_of_isRun idiom.isRun_of_mem]
  · rw [enclose_of_some h, fusedFrom_singleton idiom.isFused]

end Op

/-! ## Announcements -/

/-- The log has one event for each fused operation, in the order of their indices
and with the right index; `ends` are the positions in the text that it gives for
the loops, and at these are closing brackets from left to right. -/
structure Announces (text : List UInt8) (ops : List Op) (ends : List Nat) (log : List Event) :
    Prop where
  increasing : ends.Pairwise (· < ·)
  closing : ∀ k ∈ ends, text[k]? = some Instr.closing.byte
  each : ends.length = (Op.fusedFrom 0 ops).length
  events : log = (ends.zip (Op.fusedFrom 0 ops)).map fun (pos, op, slot) => .fused pos slot op

namespace Announces

variable {text : List UInt8} {ops ops' : List Op} {ends : List Nat} {log : List Event}

theorem empty : Announces [] [] [] [] :=
  ⟨.nil, by simp, rfl, rfl⟩

theorem lt_length (h : Announces text ops ends log) {k : Nat} (hk : k ∈ ends) :
    k < text.length :=
  (List.getElem?_eq_some_iff.mp (h.closing k hk)).1

/-- More text does not matter, and neither do operations that are not fused. -/
theorem quiet (h : Announces text ops ends log)
    (same : Op.fusedFrom 0 ops' = Op.fusedFrom 0 ops) (more : List UInt8) :
    Announces (text ++ more) ops' ends log := by
  refine ⟨h.increasing, ?_, ?_, ?_⟩
  · intro k hk
    rw [List.getElem?_append_left (h.lt_length hk)]
    exact h.closing k hk
  · rw [same]
    exact h.each
  · rw [same]
    exact h.events

/-- The next fused operation is announced with the bracket that comes next. -/
theorem fuse (h : Announces text ops ends log) {op : Op} {slot : Nat}
    (one : Op.fusedFrom 0 ops' = Op.fusedFrom 0 ops ++ [(op, slot)]) :
    Announces (text ++ [Instr.closing.byte]) ops' (ends ++ [text.length])
      (log ++ [.fused text.length slot op]) := by
  refine ⟨?_, ?_, ?_, ?_⟩
  · rw [List.pairwise_append]
    refine ⟨h.increasing, List.pairwise_singleton _ _, ?_⟩
    intro k hk l hl
    cases List.mem_singleton.mp hl
    exact h.lt_length hk
  · intro k hk
    rcases List.mem_append.mp hk with hk | hk
    · rw [List.getElem?_append_left (h.lt_length hk)]
      exact h.closing k hk
    · cases List.mem_singleton.mp hk
      exact List.getElem?_concat_length
  · rw [one, List.length_append, List.length_append, h.each]
    rfl
  · rw [one, List.zip_append h.each, List.map_append, h.events]
    rfl

theorem level_of_mem (h : Announces text ops ends log) {event : Event} (hevent : event ∈ log) :
    event.level = .debug := by
  rw [h.events] at hevent
  obtain ⟨x, -, rfl⟩ := List.mem_map.mp hevent
  rfl

end Announces

/-! ## Reading the text -/

namespace Draft

/-- A `]` announces the loop that it closes, if the loop is fused. -/
theorem announces_leave {b : Block} {outer : List Block} {body : Block} {ends : List Nat}
    {log : List Event}
    (h : Announces (source ⟨b :: outer, body⟩) (ops ⟨b :: outer, body⟩) ends log) :
    ∃ ends', Announces (source ⟨outer, b.loop body⟩) (ops ⟨outer, b.loop body⟩) ends'
      (log ++ (news (source ⟨b :: outer, body⟩).length (slot b outer) body).toList) := by
  have hslot := slot_eq b outer
  rw [source_leave, ops_closed]
  rw [ops_open] at h
  -- only what stands behind the operations in front of the loop changes
  generalize opsBefore outer ++ b.lower (opsBefore outer).length = front at h hslot ⊢
  cases hf : Op.fuse? (body.lower 0) with
  | none =>
    have hkept := (Block.fuse?_lower (slot b outer + 1) body).trans hf
    refine ⟨ends, ?_⟩
    rw [news, hf, Option.map_none, Option.toList_none, List.append_nil]
    apply h.quiet
    rw [Op.fusedFrom_append, Op.fusedFrom_append, Op.fusedFrom_enclose_of_none hkept]
  | some op =>
    have hfused := (Block.fuse?_lower (slot b outer + 1) body).trans hf
    obtain ⟨hbefore, hafter⟩ := Op.fusedFrom_enclose_of_some hfused front.length (slot b outer)
    refine ⟨ends ++ [(source ⟨b :: outer, body⟩).length], ?_⟩
    rw [news, hf]
    apply h.fuse
    rw [Op.fusedFrom_append, Op.fusedFrom_append, Nat.zero_add, hbefore, hafter, List.append_nil,
      hslot]

end Draft

/-- What may be said about a compilation and its log: an array comes with one event
for each of its fused operations and then the closing event, an error with
announcements only. -/
inductive Told (p : List UInt8) : Compilation → Prop
  | accepted {code : Code} {ends : List Nat} {log : List Event} :
      Announces p code.toList ends log →
      Told p ⟨log ++ [.compiled p.length code.size], .ok code⟩
  | refused {e : CompileError} {ops : List Op} {ends : List Nat} {log : List Event} :
      Announces p ops ends log → Told p ⟨log, .error e⟩

namespace Draft

/-- If the log was true of what was read, it is so in the end. -/
theorem Reads.told {d : Draft} {log : List Event} {text : List UInt8} {c : Compilation}
    (reads : Reads d log text c) {ends : List Nat}
    (h : Announces d.source d.ops ends log.reverse) : Told (d.source ++ text) c := by
  induction reads generalizing ends with
  | @finished b log =>
    have hsource : source ⟨[], b⟩ = b.source := by simp [source, textBefore]
    have hops : ops ⟨[], b⟩ = b.lower 0 := by simp [ops, opsBefore]
    rw [hsource, hops] at h
    rw [List.append_nil, hsource, List.reverse_cons]
    exact @Told.accepted _ b.code _ _ h
  | unclosed => exact .refused (h.quiet rfl _)
  | foreign _ => exact .refused (h.quiet rfl _)
  | unopened => exact .refused (h.quiet rfl _)
  | @act d log a n rest c _ _ _ ih =>
    have hsame : Op.fusedFrom 0 (d.act a n).ops = Op.fusedFrom 0 d.ops := by
      rw [ops_act, Op.fusedFrom_concat rfl]
    have hnext := h.quiet hsame (List.replicate n a.byte)
    rw [← source_act] at hnext
    rw [← List.append_assoc, ← source_act]
    exact ih hnext
  | @enter d log rest c _ ih =>
    have hsame : Op.fusedFrom 0 d.enter.ops = Op.fusedFrom 0 d.ops := by
      rw [ops_enter, Op.fusedFrom_concat rfl]
    have hnext := h.quiet hsame [Instr.opening.byte]
    rw [← source_enter] at hnext
    rw [List.append_cons, ← source_enter]
    exact ih hnext
  | @leave b outer body log rest c _ ih =>
    obtain ⟨ends', hnext⟩ := announces_leave h
    rw [List.append_cons, ← source_leave]
    refine @ih ends' ?_
    rw [List.reverse_append]
    cases hnews : news (source ⟨b :: outer, body⟩).length (slot b outer) body with
    | none => simpa [hnews] using hnext
    | some event => simpa [hnews] using hnext

end Draft

theorem told_compile (p : List UInt8) : Told p (compile p) :=
  (reads_compile p).told Announces.empty

/-! ## Lines of the log -/

namespace Announces

variable {text : List UInt8} {ops : List Op} {ends : List Nat} {log : List Event}

/-- A debug log shows all announcements. -/
theorem debug_lines (h : Announces text ops ends log) :
    Level.debug.lines log = (ends.zip (Op.fusedFrom 0 ops)).map fun (pos, op, slot) =>
      s!"DEBUG loop rewritten pc={pos} open_offset={slot} op={op.render}" := by
  have hall : log.filter (·.visibleAt .debug) = log := by
    rw [List.filter_eq_self]
    intro event hevent
    simp [Event.visibleAt, h.level_of_mem hevent]
  rw [Level.lines, hall, h.events, List.map_map]
  apply List.map_congr_left
  rintro ⟨pos, op, slot⟩ -
  exact Event.render_fused pos slot op

/-- A log of a terser level shows none of them. -/
theorem info_lines (h : Announces text ops ends log) : Level.info.lines log = [] := by
  rw [Level.lines, List.filter_eq_nil_iff.mpr, List.map_nil]
  intro event hevent
  simp [Event.visibleAt, h.level_of_mem hevent, Level.detail]

end Announces

theorem Level.lines_append (level : Level) (log log' : List Event) :
    level.lines (log ++ log') = level.lines log ++ level.lines log' := by
  simp [lines]

/-- **The log of the compiler is true.** If a program is accepted, the log has an
announcement for each fused operation of the array that came out, in the order of
their indices, with the operation and its index; it tells where in the program the
loops end, at closing brackets further and further to the right; and then comes one
line with the size of the program and of the array. These are the texts of the lines
at the two levels. If a program is not accepted, there is no such line. -/
theorem log_announces_fused_loops (p : List UInt8) :
    (∀ code, (compile p).result = .ok code → ∃ ends log, Announces p code.toList ends log ∧
      (compile p).events = log ++ [.compiled p.length code.size] ∧
      Level.debug.lines (compile p).events =
        ((ends.zip (Op.fusedFrom 0 code.toList)).map fun (pos, op, slot) =>
          s!"DEBUG loop rewritten pc={pos} open_offset={slot} op={op.render}") ++
        [s!"INFO program translated instructions={p.length} ops={code.size}"] ∧
      Level.info.lines (compile p).events =
        [s!"INFO program translated instructions={p.length} ops={code.size}"]) ∧
    (∀ e, (compile p).result = .error e → Level.info.lines (compile p).events = []) := by
  have told := told_compile p
  generalize compile p = c at told ⊢
  cases told with
  | @accepted code ends log h =>
    refine ⟨?_, ?_⟩
    · intro code' hcode
      cases hcode
      refine ⟨ends, log, h, rfl, ?_, ?_⟩
      · rw [Level.lines_append, h.debug_lines, ← Event.render_compiled]
        rfl
      · rw [Level.lines_append, h.info_lines, ← Event.render_compiled]
        rfl
    · intro e he
      cases he
  | refused h =>
    refine ⟨?_, ?_⟩
    · intro code hcode
      cases hcode
    · intro e _
      exact h.info_lines

/-- Two fused loops inside a loop that stays, and a fused loop in front of an error. -/
theorem log_announces_fused_loops_nested :
    (compile ",[>[-]<[->+<]-]".toUTF8.data.toList).result =
      .ok #[.run .read 1, .jumpZero 7, .run .right 1, .clear, .run .left 1, .transfer 1,
        .run .dec 1, .jumpNonzero 1] ∧
    (∃ j k, j < k ∧ (compile ",[>[-]<[->+<]-]".toUTF8.data.toList).events =
      [.fused j 3 .clear, .fused k 5 (.transfer 1), .compiled 15 8]) ∧
    (compile "[-]]".toUTF8.data.toList).result = .error (.unopened 3) ∧
    Level.info.lines (compile "[-]]".toUTF8.data.toList).events = [] := by
  have accepted : (compile ",[>[-]<[->+<]-]".toUTF8.data.toList).result =
      .ok #[.run .read 1, .jumpZero 7, .run .right 1, .clear, .run .left 1, .transfer 1,
        .run .dec 1, .jumpNonzero 1] := by decide +kernel
  have refused : (compile "[-]]".toUTF8.data.toList).result = .error (.unopened 3) := by
    decide +kernel
  refine ⟨accepted, ?_, refused, (log_announces_fused_loops _).2 _ refused⟩
  obtain ⟨ends, log, h, hevents, -⟩ := (log_announces_fused_loops _).1 _ accepted
  obtain ⟨j, k, rfl⟩ := List.length_eq_two.mp h.each
  refine ⟨j, k, by simpa using h.increasing, ?_⟩
  rw [hevents, h.events]
  rfl

end Brainfuck
