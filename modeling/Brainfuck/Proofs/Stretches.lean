import Brainfuck.Proofs.Exchanges
import Brainfuck.Proofs.Resuming
import Mathlib.Data.List.DropRight

/-!
# Operations in a row

A stretch of an array without jumps does its operations one after the other:

* **stretches** — `Machine.execAll` executes a list of operations, and a machine
  that comes to such a stretch does just that (`advance_stretch`). An array without
  jumps is run by executing all of it and flushing (`run_stretch`);
* **reading in a row** — reading `n` bytes by one operation, and by `n` operations
  of one byte each, differs in one place. The one operation stops at the first end
  of the input, and the `n` operations ask again. Nothing of that can be seen if that
  was the last answer they wanted, or if the input has come to its end for good
  (`EndsForGood`), and it is always seen in all other cases (`alike_readCell_iff`).

The main result is `reads_in_a_row_iff`.
-/

namespace Brainfuck

namespace Machine

open Outcome

variable {code : Code} {m u v w : Machine} {ops : List Op}

/-! ## Stretches -/

/-- Execute operations one after the other, and count them. -/
def execAll : List Op → Machine → Outcome RunError Machine Unit
  | [], m => .done () m
  | op :: ops, m => (m.exec op).bind fun _ u => u.tick.execAll ops

/-- An operation that is next is executed and counted. -/
theorem advance_succ_of_op {op : Op} (hop : code[m.pc]? = some op) (on : m.HasCell) (k : Nat) :
    m.advance code (k + 1) = (m.exec op).bind fun _ u => u.tick.advance code k := by
  rw [advance, step_of_op hop on]
  cases m.exec op with
  | done a u => rfl
  | failed e u => rfl
  | unfinished => rfl

theorem pc_tick_of_exec {op : Op} (straight : op.isJump = false) (small : m.pc < counterMax)
    (h : (m.exec op).state? = some u) : u.tick.pc = m.pc + 1 := by
  have hpc : u.pc = m.pc := (Beside.exec straight h).pc
  show bump u.pc = m.pc + 1
  rw [hpc, bump_of_lt small]

/-- A machine that comes to a stretch without jumps executes it. -/
theorem advance_stretch (small : code.size ≤ counterMax)
    (straight : ∀ op ∈ ops, op.isJump = false) {rest : List Op}
    (text : code.toList.drop m.pc = ops ++ rest) (on : m.HasCell) (k : Nat) :
    m.advance code (ops.length + k) = (m.execAll ops).bind fun _ u => u.advance code k := by
  induction ops generalizing m with
  | nil =>
    rw [List.length_nil, Nat.zero_add]
    rfl
  | cons op ops ih =>
    have hop : code[m.pc]? = some op := by
      rw [← Array.getElem?_toList, ← List.head?_drop, text]
      rfl
    have hlt : m.pc < code.size := (Array.getElem?_eq_some_iff.mp hop).1
    rw [List.length_cons, Nat.succ_add, advance_succ_of_op hop on, execAll]
    cases hexec : m.exec op with
    | done a u =>
      have hstate : (m.exec op).state? = some u := by rw [hexec]; rfl
      have hpc : u.tick.pc = m.pc + 1 :=
        pc_tick_of_exec (straight op List.mem_cons_self) (by omega) hstate
      have hon : u.HasCell := on.exec hstate
      refine ih (fun op hmem => straight op (List.mem_cons_of_mem _ hmem)) ?_ hon
      rw [hpc, ← List.tail_drop, text]
      rfl
    | failed e u => rfl
    | unfinished => rfl

/-- Who has executed a stretch stands behind it. -/
theorem pc_of_execAll (straight : ∀ op ∈ ops, op.isJump = false)
    (small : m.pc + ops.length ≤ counterMax) (h : m.execAll ops = .done () u) :
    u.pc = m.pc + ops.length := by
  induction ops generalizing m with
  | nil =>
    cases h
    rfl
  | cons op ops ih =>
    rw [List.length_cons] at small ⊢
    obtain ⟨a, v, hexec, hrest⟩ := Outcome.of_bind_eq_done h
    have hpc : v.tick.pc = m.pc + 1 :=
      pc_tick_of_exec (straight op List.mem_cons_self) (by omega) (by rw [hexec]; rfl)
    have hrest := ih (fun op hmem => straight op (List.mem_cons_of_mem _ hmem)) (by omega) hrest
    omega

theorem HasCell.execAll (on : m.HasCell) (h : (m.execAll ops).state? = some u) : u.HasCell := by
  induction ops generalizing m with
  | nil =>
    cases h
    exact on
  | cons op ops ih =>
    rcases Outcome.of_state?_bind h with ⟨e, hfailed⟩ | ⟨a, v, hdone, hrest⟩
    · exact on.exec (by rw [hfailed]; rfl)
    · have hv : v.HasCell := on.exec (by rw [hdone]; rfl)
      exact ih (m := v.tick) hv hrest

/-- To run an array without jumps is to execute it and to flush. -/
theorem run_stretch (straight : ∀ op ∈ ops, op.isJump = false) (small : ops.length ≤ counterMax)
    (hpc : m.pc = 0) (on : m.HasCell) {fuel : Nat} (enough : ops.length ≤ fuel) :
    m.run ops.toArray fuel = (m.execAll ops).bind fun _ u => u.flush := by
  obtain ⟨k, rfl⟩ : ∃ k, fuel = ops.length + k := ⟨fuel - ops.length, by omega⟩
  have text : ops.toArray.toList.drop m.pc = ops ++ [] := by simp [hpc]
  rw [run, advance_stretch small straight text on]
  cases hall : m.execAll ops with
  | done a u =>
    have hu : u.pc = ops.length := by
      have := pc_of_execAll straight (by omega) hall
      omega
    have hend : u.atEnd ops.toArray = true := by simp [atEnd, hu]
    show (u.advance ops.toArray k).bind _ = u.flush
    rw [advance_of_atEnd hend]
    exact if_pos hend
  | failed e u => rfl
  | unfinished => rfl

theorem exchanges_of_execAll (h : (m.execAll ops).state? = some u) :
    Console.Exchanges m.console u.console := by
  induction ops generalizing m with
  | nil =>
    cases h
    exact .refl
  | cons op ops ih =>
    rcases Outcome.of_state?_bind h with ⟨e, hfailed⟩ | ⟨a, v, hdone, hrest⟩
    · exact exchanges_of_exec (by rw [hfailed]; rfl)
    · have hfirst : Console.Exchanges m.console v.console :=
        exchanges_of_exec (by rw [hdone]; rfl)
      exact hfirst.trans (ih (m := v.tick) hrest)

/-- Executing never makes flushes fail that could not fail before. -/
theorem steady_of_execAll (steady : m.console.writer.flushes = none)
    (h : m.execAll ops = .done () u) : u.console.writer.flushes = none := by
  induction ops generalizing m with
  | nil =>
    cases h
    exact steady
  | cons op ops ih =>
    obtain ⟨a, v, hexec, hrest⟩ := Outcome.of_bind_eq_done h
    have hself := (Coupled.refl (m := m) (.refl steady)).exec Console.UpToFlushes.coupling op
    have hv : Coupled Console.UpToFlushes v v := hself.of_state? (by rw [hexec]; rfl)
    exact ih (m := v.tick) hv.console.steady hrest

end Machine

/-! ## One byte -/

/-- What a reader still delivers, without the ends of the input at the back. A reader
that has nothing left is at its end as well, so these cannot be told from nothing. -/
def Reader.pending (r : Reader) : List Atom := r.atoms.rdropWhile (· = .eof)

theorem Reader.pending_eq_nil_iff (r : Reader) : r.pending = [] ↔ ∀ a ∈ r.atoms, a = .eof := by
  simp [pending]

/-- What stands in front of something that is kept is kept. -/
theorem rdropWhile_append_of_ne_nil {α : Type} {p : α → Bool} {back : List α}
    (h : back.rdropWhile p ≠ []) (front : List α) :
    (front ++ back).rdropWhile p = front ++ back.rdropWhile p := by
  have hne : (back.reverse.dropWhile p).isEmpty = false := by
    simpa [List.rdropWhile] using h
  rw [List.rdropWhile, List.rdropWhile, List.reverse_append, List.dropWhile_append, hne]
  simp

/-- Atoms that are taken are missing for good, unless they are nothing but ends. -/
theorem Reader.length_pending_lt {r r' : Reader} (taken : r'.atoms <:+ r.atoms.tail)
    (more : ¬ ∀ a ∈ r.atoms, a = .eof) : r'.pending.length < r.pending.length := by
  by_cases ends : r'.pending = []
  · rw [ends]
    exact List.length_pos_iff.mpr (mt r.pending_eq_nil_iff.mp more)
  · obtain ⟨front, hfront⟩ := taken
    cases hatoms : r.atoms with
    | nil => exact absurd (by simp [hatoms]) more
    | cons a rest =>
      rw [hatoms] at hfront
      have hall : r.atoms = (a :: front) ++ r'.atoms := by
        rw [hatoms, List.cons_append, hfront, List.tail_cons]
      have hpending : r.pending = (a :: front) ++ r'.pending := by
        rw [pending, hall]
        exact rdropWhile_append_of_ne_nil ends _
      rw [hpending, List.length_append, List.length_cons]
      omega

/-- If there is an end of the input among the first `n` atoms, with nothing but bytes in
front of it, then it is the `n`-th one, or there are only ends behind it, however far
behind. -/
def EndsForGood : Nat → List Atom → Prop
  | n + 1, .byte _ :: rest => EndsForGood n rest
  | n + 1, .eof :: rest => n = 0 ∨ ∀ a ∈ rest, a = .eof
  | _, _ => True

/-- Also a byte that comes only after the answers that are wanted is to be reckoned with. -/
example : ¬ EndsForGood 2 [.eof, .eof, .byte 97] := by
  simp [EndsForGood]

/-- What a byte, a fault or the end of the input leads to, whichever comes first. -/
def Atom.byFirst {α : Type} (byte : UInt8 → α) (fault : IoFault → α) (atEnd : α) :
    List Atom → α
  | .byte b :: _ => byte b
  | .fault f :: _ => fault f
  | _ => atEnd

theorem Atom.byFirst_of_ends {α : Type} {byte : UInt8 → α} {fault : IoFault → α} {atEnd : α}
    {atoms : List Atom} (ends : ∀ a ∈ atoms, a = .eof) :
    byFirst byte fault atEnd atoms = atEnd := by
  cases atoms with
  | nil => rfl
  | cons a rest =>
    obtain rfl : a = .eof := ends a List.mem_cons_self
    rfl

/-- A reader is asked behind a flush. If that cannot fail, its first atom is the
answer. -/
theorem Console.exists_getByte {c : Console} (steady : c.writer.flushes = none) :
    ∃ d, c.getByte = (Reply.ofAtoms c.reader.atoms).outcome d ∧
      d.reader.atoms = c.reader.atoms.tail ∧ d.writer.flushes = none := by
  obtain ⟨d, asked, hask⟩ :=
    exists_asked { c with calls := .flush true :: c.calls }
  refine ⟨d, ?_, asked.atoms, ?_⟩
  · rw [getByte, flush_of_steady steady]
    exact hask
  · rw [asked.writer]
    exact steady

namespace Machine

open Outcome

variable {m u v w : Machine} {n : Nat}

/-- The two machines have the same tape, and the same input is left to them, up to the
ends at the back of it. -/
structure SameReading (u v : Machine) : Prop where
  tape : u.tape = v.tape
  pending : u.console.reader.pending = v.console.reader.pending

namespace SameReading

theorem refl (m : Machine) : SameReading m m := ⟨rfl, rfl⟩

theorem symm (h : SameReading u v) : SameReading v u := ⟨h.tape.symm, h.pending.symm⟩

theorem trans (h : SameReading u v) (h' : SameReading v w) : SameReading u w :=
  ⟨h.tape.trans h'.tape, h.pending.trans h'.pending⟩

end SameReading

/-- The two machines are at the same cell of the same tape, their readers deliver the
same, and they cannot fail to flush. -/
structure Abreast (m w : Machine) : Prop where
  tape : m.tape = w.tape
  ptr : m.ptr = w.ptr
  atoms : m.console.reader.atoms = w.console.reader.atoms
  steady : m.console.writer.flushes = none
  steady' : w.console.writer.flushes = none

theorem Abreast.sameReading (abreast : Abreast m w) : SameReading m w :=
  ⟨abreast.tape, by rw [Reader.pending, Reader.pending, abreast.atoms]⟩

/-- Operations that read one byte each. -/
def oneByOne (n : Nat) : List Op := List.replicate n (.run .read 1)

/-- One operation stores a byte and goes on reading, fails with a fault, and is over
at the end of the input. -/
theorem exists_readCell_succ (steady : m.console.writer.flushes = none) :
    ∃ d : Console, d.reader.atoms = m.console.reader.atoms.tail ∧ d.writer.flushes = none ∧
      ∀ n, m.readCell (n + 1) = Atom.byFirst
        (fun b => readCell n { m with tape := m.tape.set m.ptr b, console := d })
        (fun f => .failed (.io f) { m with console := d })
        (.done () { m with console := d }) m.console.reader.atoms := by
  obtain ⟨d, hget, hatoms, hsteady⟩ := Console.exists_getByte steady
  refine ⟨d, hatoms, hsteady, ?_⟩
  intro n
  rw [readCell, hget]
  cases m.console.reader.atoms with
  | nil => rfl
  | cons a rest => cases a <;> rfl

/-- One by one, they store a byte and go on, fail with a fault, and go on also at the
end of the input. -/
theorem exists_oneByOne_succ (steady : m.console.writer.flushes = none) :
    ∃ d : Console, d.reader.atoms = m.console.reader.atoms.tail ∧ d.writer.flushes = none ∧
      ∀ n, m.execAll (oneByOne (n + 1)) = Atom.byFirst
        (fun b => execAll (oneByOne n) { m with tape := m.tape.set m.ptr b, console := d }.tick)
        (fun f => .failed (.io f) { m with console := d })
        (execAll (oneByOne n) { m with console := d }.tick) m.console.reader.atoms := by
  obtain ⟨d, hatoms, hsteady, hread⟩ := exists_readCell_succ steady
  refine ⟨d, hatoms, hsteady, ?_⟩
  intro n
  rw [oneByOne, List.replicate_succ, execAll]
  show (m.readCell (0 + 1)).bind _ = _
  rw [hread 0]
  cases m.console.reader.atoms with
  | nil => rfl
  | cons a rest => cases a <;> rfl

/-- Whoever reads at all takes the first atom. -/
theorem atoms_of_oneByOne_succ (steady : w.console.writer.flushes = none)
    (h : (w.execAll (oneByOne (n + 1))).state? = some v) :
    v.console.reader.atoms <:+ w.console.reader.atoms.tail := by
  obtain ⟨d, hd, -, hall⟩ := exists_oneByOne_succ steady
  rw [hall n] at h
  rw [← hd]
  generalize w.console.reader.atoms = atoms at h
  cases atoms with
  | nil => exact (exchanges_of_execAll h).atoms
  | cons a rest =>
    cases a with
    | byte b => exact (exchanges_of_execAll h).atoms
    | eof => exact (exchanges_of_execAll h).atoms
    | fault f =>
      cases h
      exact List.suffix_refl _

/-- To ask on where there are only ends changes nothing. -/
theorem alike_oneByOne_of_ends (same : SameReading u w) (steady : w.console.writer.flushes = none)
    (ends : ∀ a ∈ w.console.reader.atoms, a = .eof) (n : Nat) :
    Alike SameReading (.done () u) (w.execAll (oneByOne n)) := by
  induction n generalizing w with
  | zero => exact .done () same
  | succ n ih =>
    obtain ⟨d, hd, hsteady, hall⟩ := exists_oneByOne_succ steady
    have hends : ∀ a ∈ d.reader.atoms, a = .eof := by
      rw [hd]
      intro a ha
      exact ends a (List.mem_of_mem_tail ha)
    have hsame : SameReading u { w with console := d }.tick := by
      refine ⟨same.tape, ?_⟩
      show u.console.reader.pending = d.reader.pending
      rw [same.pending, (Reader.pending_eq_nil_iff _).mpr ends,
        (Reader.pending_eq_nil_iff _).mpr hends]
    rw [hall n, Atom.byFirst_of_ends ends]
    exact ih hsame hsteady hends

/-- Whoever goes on behind the end of the input stays level with who stopped there
exactly if he wants nothing more, or if only ends come. -/
theorem alike_oneByOne_iff (same : SameReading u w) (steady : w.console.writer.flushes = none) :
    Alike SameReading (.done () u) (w.execAll (oneByOne n)) ↔
      n = 0 ∨ ∀ a ∈ w.console.reader.atoms, a = .eof := by
  cases n with
  | zero => exact iff_of_true (.done () same) (.inl rfl)
  | succ n =>
    by_cases ends : ∀ a ∈ w.console.reader.atoms, a = .eof
    · exact iff_of_true (alike_oneByOne_of_ends same steady ends _) (.inr ends)
    · refine iff_of_false ?_ (by simpa using ends)
      intro halike
      obtain ⟨v, hv, hlast⟩ := halike.exists_of_state? rfl
      have hlt := Reader.length_pending_lt (atoms_of_oneByOne_succ steady hv) ends
      rw [← same.pending, hlast.pending] at hlt
      exact Nat.lt_irrefl _ hlt

/-- Reading in one operation and reading one by one come to the same exactly if an end
of the input, once it is reached, is the last answer wanted or the end for good. -/
theorem alike_readCell_iff (abreast : Abreast m w) {atoms : List Atom}
    (hatoms : m.console.reader.atoms = atoms) :
    Alike SameReading (m.readCell n) (w.execAll (oneByOne n)) ↔ EndsForGood n atoms := by
  induction n generalizing m w atoms with
  | zero =>
    refine iff_of_true ?_ (by simp [EndsForGood])
    exact .done () abreast.sameReading
  | succ n ih =>
    obtain ⟨c, hc, hsteady, hread⟩ := exists_readCell_succ abreast.steady
    obtain ⟨d, hd, hsteady', hall⟩ := exists_oneByOne_succ abreast.steady'
    rw [hatoms] at hc
    rw [← abreast.atoms, hatoms] at hd
    rw [hread n, hall n, ← abreast.atoms, hatoms]
    -- both have got the same answer, and the same is left to them
    have hsame : SameReading { m with console := c } { w with console := d }.tick := by
      refine ⟨abreast.tape, ?_⟩
      show c.reader.pending = d.reader.pending
      rw [Reader.pending, Reader.pending, hc, hd]
    match atoms with
    | [] =>
      have hends : ∀ a ∈ d.reader.atoms, a = .eof := by simp [hd]
      exact iff_of_true (alike_oneByOne_of_ends hsame hsteady' hends n) (by simp [EndsForGood])
    | .eof :: rest =>
      have hrest : d.reader.atoms = rest := hd
      rw [EndsForGood, ← hrest]
      exact alike_oneByOne_iff hsame hsteady'
    | .byte b :: rest =>
      have hnext : Abreast { m with tape := m.tape.set m.ptr b, console := c }
          { w with tape := w.tape.set w.ptr b, console := d }.tick := by
        refine ⟨?_, abreast.ptr, hc.trans hd.symm, hsteady, hsteady'⟩
        show m.tape.set m.ptr b = w.tape.set w.ptr b
        rw [abreast.tape, abreast.ptr]
      exact ih hnext hc
    | .fault f :: rest =>
      refine iff_of_true ?_ (by simp [EndsForGood])
      exact .failed (RunError.io f) ⟨hsame.tape, hsame.pending⟩

/-! ## Runs -/

/-- A flush that cannot fail reads nothing. -/
theorem exists_flush_sameReading (steady : u.console.writer.flushes = none) :
    ∃ v, u.flush = .done () v ∧ SameReading u v := by
  obtain ⟨v, hflush, hv⟩ := exists_flush_of_steady steady
  exact ⟨v, hflush, hv.tape, by rw [Reader.pending, Reader.pending, hv.console.reader]⟩

theorem alike_run_oneRead (on : m.HasCell) (hpc : m.pc = 0)
    (steady : m.console.writer.flushes = none) {fuel : Nat} (enough : 1 ≤ fuel) :
    Alike SameReading (m.readCell n) (m.run #[.run .read n] fuel) := by
  have straight : ∀ op ∈ [Op.run .read n], op.isJump = false := by simp [Op.isJump]
  have one_le : 1 ≤ counterMax := by decide
  have hrun : m.run #[.run .read n] fuel =
      (m.execAll [.run .read n]).bind fun _ u => u.flush :=
    run_stretch straight one_le hpc on enough
  have hexec : (m.execAll [.run .read n]).bind (fun _ u => u.flush) =
      (m.readCell n).bind fun _ u => u.tick.flush := by
    show ((m.readCell n).bind fun _ u => .done () u.tick).bind (fun _ u => u.flush) = _
    cases m.readCell n with
    | done a u => rfl
    | failed e u => rfl
    | unfinished => rfl
  rw [hrun, hexec]
  refine .bind_self SameReading.refl ?_
  intro a u hread
  have hall : m.execAll [.run .read n] = .done () u.tick := by
    show (m.readCell n).bind _ = _
    rw [hread]
    rfl
  obtain ⟨v, hflush, hv⟩ := exists_flush_sameReading (steady_of_execAll steady hall)
  exact ⟨v, hflush, hv.tape, hv.pending⟩

theorem alike_run_oneByOne (on : m.HasCell) (hpc : m.pc = 0)
    (steady : m.console.writer.flushes = none) (small : n ≤ counterMax) {fuel : Nat}
    (enough : n ≤ fuel) :
    Alike SameReading (m.execAll (oneByOne n))
      (m.run (Array.replicate n (.run .read 1)) fuel) := by
  have hlength : (oneByOne n).length = n := List.length_replicate
  have hrun : m.run (oneByOne n).toArray fuel =
      (m.execAll (oneByOne n)).bind fun _ u => u.flush := by
    apply run_stretch
    · intro op hop
      rw [List.eq_of_mem_replicate hop]
      rfl
    · rwa [hlength]
    · exact hpc
    · exact on
    · rwa [hlength]
  rw [oneByOne, List.toArray_replicate] at hrun
  rw [hrun]
  refine .bind_self SameReading.refl ?_
  intro a u hall
  exact exists_flush_sameReading (steady_of_execAll steady hall)

theorem returned_oneByOne (m : Machine) (n : Nat) : (m.execAll (oneByOne n)).returned = true := by
  induction n generalizing m with
  | zero => rfl
  | succ n ih =>
    rw [oneByOne, List.replicate_succ, execAll]
    cases hread : m.exec (.run .read 1) with
    | done a u => exact ih u.tick
    | failed e u => rfl
    | unfinished => exact absurd hread (readCell_ne_unfinished m 1)

theorem returned_readCell (m : Machine) (n : Nat) : (m.readCell n).returned = true := by
  cases hread : m.readCell n with
  | done a u => rfl
  | failed e u => rfl
  | unfinished => exact absurd hread (readCell_ne_unfinished m n)

end Machine

/-- **Reads in a row.** If its writer cannot fail, a machine that reads `n` bytes in one
operation and one that reads them in `n` operations both come to an end. They come to
the same end, with the same tape and the same input left, exactly if an end of the
input that they reach is the last answer that they want or the end for good. -/
theorem reads_in_a_row_iff {m : Machine} (on : m.HasCell) (hpc : m.pc = 0)
    (reliable : m.console.writer.Reliable) {n : Nat} (positive : 1 ≤ n) (small : n ≤ counterMax)
    {fuel : Nat} (enough : n ≤ fuel) :
    (m.run #[.run .read n] fuel).returned = true ∧
      (m.run (Array.replicate n (.run .read 1)) fuel).returned = true ∧
      (Outcome.Alike Machine.SameReading (m.run #[.run .read n] fuel)
          (m.run (Array.replicate n (.run .read 1)) fuel) ↔
        EndsForGood n m.console.reader.atoms) := by
  have hone := Machine.alike_run_oneRead (n := n) on hpc reliable.2 (Nat.le_trans positive enough)
  have hmany := Machine.alike_run_oneByOne on hpc reliable.2 small enough
  have hiff := Machine.alike_readCell_iff (n := n) (m := m) (w := m)
    ⟨rfl, rfl, rfl, reliable.2, reliable.2⟩ rfl
  refine ⟨?_, ?_, ?_⟩
  · rw [← hone.returned_eq]
    exact m.returned_readCell n
  · rw [← hmany.returned_eq]
    exact m.returned_oneByOne n
  · rw [← hiff]
    constructor
    · intro h
      have hback : Outcome.Alike Machine.SameReading _ _ := hmany.symm fun _ _ => .symm
      exact (hone.trans h fun _ _ _ => .trans).trans hback fun _ _ _ => .trans
    · intro h
      have hback : Outcome.Alike Machine.SameReading _ _ := hone.symm fun _ _ => .symm
      exact (hback.trans h fun _ _ _ => .trans).trans hmany fun _ _ _ => .trans

/-- A byte behind an interruption, and then an end of the input, with a byte behind it that
nobody wants any more. -/
theorem reads_in_a_row_iff_at_end :
    EndsForGood 2
      (Reader.mk [.fail ⟨.interrupted, "again"⟩, .data [97], .eof, .data [98]]).atoms ∧
    Outcome.Alike Machine.SameReading
      ((Machine.start 1 { reader :=
        ⟨[.fail ⟨.interrupted, "again"⟩, .data [97], .eof, .data [98]]⟩ }).run #[.run .read 2] 2)
      ((Machine.start 1 { reader :=
        ⟨[.fail ⟨.interrupted, "again"⟩, .data [97], .eof, .data [98]]⟩ }).run
          (Array.replicate 2 (.run .read 1)) 2) := by
  have ends : EndsForGood 2
      (Reader.mk [.fail ⟨.interrupted, "again"⟩, .data [97], .eof, .data [98]]).atoms := .inl rfl
  have on : (Machine.start 1 { reader :=
      ⟨[.fail ⟨.interrupted, "again"⟩, .data [97], .eof, .data [98]]⟩ }).HasCell := by
    show 0 < 1
    omega
  have hiff := reads_in_a_row_iff on rfl ⟨rfl, rfl⟩ (n := 2) (by omega) (by decide)
    (Nat.le_refl 2)
  exact ⟨ends, hiff.2.2.mpr ends⟩

/-- A byte behind an end of the input is not seen by one operation that reads twice, but
by two operations that read once. -/
theorem reads_in_a_row_differ :
    ¬ ∀ (m : Machine) (n fuel : Nat), m.HasCell → m.pc = 0 → m.console.writer.Reliable →
      1 ≤ n → n ≤ counterMax → n ≤ fuel →
      Outcome.Alike Machine.SameReading (m.run #[.run .read n] fuel)
        (m.run (Array.replicate n (.run .read 1)) fuel) := by
  intro h
  have on : (Machine.start 1 { reader := ⟨[.eof, .data [97]]⟩ }).HasCell := by
    show 0 < 1
    omega
  have halike := h _ 2 2 on rfl ⟨rfl, rfl⟩ (by omega) (by decide) (Nat.le_refl 2)
  have hone : (Machine.start 1 { reader := ⟨[.eof, .data [97]]⟩ }).run #[.run .read 2] 2 =
      .done ()
        { tape := ⟨#[0]⟩, pc := 1, steps := 1,
          console := {
            reader := ⟨[.data [97]]⟩,
            calls := [.flush true, .read (.bytes []), .flush true] } } := by
    decide +kernel
  have hmany : (Machine.start 1 { reader := ⟨[.eof, .data [97]]⟩ }).run
      (Array.replicate 2 (.run .read 1)) 2 =
      .done ()
        { tape := ⟨#[97]⟩, pc := 2, steps := 2,
          console := {
            reader := ⟨[.data []]⟩,
            calls := [.flush true, .read (.bytes [97]), .flush true, .read (.bytes []),
              .flush true] } } := by
    decide +kernel
  rw [hone, hmany] at halike
  cases halike with
  | done _ hsame => exact absurd hsame.tape (by decide)

end Brainfuck
