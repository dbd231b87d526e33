import Brainfuck.Proofs.Leftovers
import Brainfuck.Proofs.Stretches
import Brainfuck.Proofs.Targets
import Mathlib.Data.Nat.Find
import Mathlib.Order.Bounds.Defs

/-!
# Scans come to an end

A scan is the one operation that may look at any number of cells. This module says
where it ends, and that every operation of a compiled array returns:

* **places** — a scan that moves comes to a place where it stops, be it a zero cell or
  the end of the tape, before it has made more moves than there are cells
  (`Tape.exists_isLeast_stop`);
* **moves** — each place in front of that one costs one look (`Strode.scanFor`), so the
  scan ends there (`scanFor_of_found`, `scanFor_of_edge`);
* **steps** — apart from that, only a write can keep a step from returning, if there are
  more bytes than the writer takes before it interrupts forever (`returned_step`). A
  writer that never interrupts forever stays like that (`answers_of_exchanges`), so
  many steps return as well (`returned_advance`).

The main result is `scan_stops_at_first`.
-/

namespace Brainfuck

/-! ## Places -/

namespace Tape

/-- A scan that comes to this place goes no further: there is no cell, or it is zero. -/
def Stops (t : Tape) (x : Int) : Prop := ¬ t.Has x ∨ t.get x.toNat = 0

instance (t : Tape) (x : Int) : Decidable (t.Stops x) := inferInstanceAs (Decidable (_ ∨ _))

theorem lt_size_of_get_ne_zero {t : Tape} {i : Nat} (h : t.get i ≠ 0) : i < t.size := by
  by_contra hoff
  have hnone : t.cells[i]? = none := Array.getElem?_eq_none (Nat.le_of_not_lt hoff)
  exact h (by rw [get, Array.getD_eq_getD_getElem?, hnone, Option.getD_none])

/-- Who has made as many moves as there are cells is off the tape. -/
theorem not_has_of_size_moves {t : Tape} {p : Nat} {stride : Int} (moving : stride ≠ 0)
    (on : p < t.size) : ¬ t.Has (p + t.size * stride) := by
  have hsize : (0 : Int) ≤ t.size := Int.natCast_nonneg _
  rcases Int.lt_or_gt_of_ne moving with hleft | hright
  · have hfar : (t.size : Int) * stride ≤ t.size * (-1) :=
      Int.mul_le_mul_of_nonneg_left (by omega) hsize
    intro hhas
    have := hhas.1
    omega
  · have hfar : (t.size : Int) * 1 ≤ t.size * stride :=
      Int.mul_le_mul_of_nonneg_left (by omega) hsize
    intro hhas
    have := hhas.2
    omega

theorem lt_size_of_has_moves {t : Tape} {p k : Nat} {stride : Int} (moving : stride ≠ 0)
    (on : p < t.size) (hk : k ≤ t.size) (there : t.Has (p + k * stride)) : k < t.size := by
  refine Nat.lt_of_le_of_ne hk ?_
  rintro rfl
  exact not_has_of_size_moves moving on there

/-- There is a first place to stop at. -/
theorem exists_isLeast_stop {t : Tape} {p : Nat} {stride : Int} (moving : stride ≠ 0)
    (on : p < t.size) : ∃ k ≤ t.size, IsLeast {j : Nat | t.Stops (p + j * stride)} k := by
  have hstops : ∃ j : Nat, t.Stops (p + j * stride) :=
    ⟨t.size, .inl (not_has_of_size_moves moving on)⟩
  refine ⟨Nat.find hstops, ?_, Nat.find_spec hstops, ?_⟩
  · exact Nat.find_min' hstops (.inl (not_has_of_size_moves moving on))
  · intro j hj
    exact Nat.find_min' hstops hj

end Tape

namespace Machine

open Tape (Stops)

variable {code : Code} {m u : Machine} {stride : Int}

/-! ## Moves -/

/-- A way that no place stops is strode along. -/
theorem strode_of_not_stops {k cell : Nat} (hcell : (cell : Int) = m.ptr + k * stride)
    (free : ∀ j < k, ¬ m.tape.Stops (m.ptr + j * stride)) :
    Strode stride k m { m with ptr := cell } := by
  refine ⟨rfl, hcell, ?_⟩
  intro j hj
  obtain ⟨hhas, hget⟩ := not_or.mp (free j hj)
  have hge := (not_not.mp hhas).1
  exact ⟨_, Int.toNat_of_nonneg hge, hget⟩

namespace Strode

/-- The first of the moves, and the way from there. -/
theorem first {k : Nat} (strode : Strode stride (k + 1) m u) (on : u.HasCell) :
    m.cell ≠ 0 ∧
      ∃ cell, m.locate stride = .ok cell ∧ Strode stride k { m with ptr := cell } u := by
  have hlast := strode.ptr
  push_cast at hlast
  rw [Int.add_mul] at hlast
  obtain ⟨cell, hcell, hlt⟩ : ∃ cell : Nat, (cell : Int) = m.ptr + stride ∧ cell < m.tape.size := by
    cases k with
    | zero =>
      have on' : u.ptr < m.tape.size := by
        have htape : u.tape = m.tape := by rw [strode.same]
        rw [← htape]
        exact on
      exact ⟨u.ptr, by simpa using hlast, on'⟩
    | succ k =>
      obtain ⟨cell, hcell, hget⟩ := strode.nonzero 1 (by omega)
      exact ⟨cell, by simpa using hcell, Tape.lt_size_of_get_ne_zero hget⟩
  refine ⟨?_, cell, ?_, strode.same, ?_, ?_⟩
  · obtain ⟨i, hi, hget⟩ := strode.nonzero 0 (by omega)
    obtain rfl : i = m.ptr := Int.ofNat_inj.mp (by simpa using hi)
    exact hget
  · have hhas : 0 ≤ (m.ptr : Int) + stride ∧ (m.ptr : Int) + stride < m.tape.size := by omega
    simp only [locate, if_pos hhas]
    rw [← hcell, Int.toNat_natCast]
  · show (u.ptr : Int) = cell + k * stride
    omega
  · intro j hj
    obtain ⟨i, hi, hget⟩ := strode.nonzero (j + 1) (by omega)
    refine ⟨i, ?_, hget⟩
    show (i : Int) = cell + j * stride
    push_cast at hi
    rw [Int.add_mul] at hi
    omega

/-- Each move costs a look. -/
theorem scanFor {k : Nat} (strode : Strode stride k m u) (on : u.HasCell) (fuel : Nat) :
    m.scanFor stride (k + fuel) = u.scanFor stride fuel := by
  induction k generalizing m with
  | zero =>
    have hptr : u.ptr = m.ptr := Int.ofNat_inj.mp (by simpa using strode.ptr)
    rw [Nat.zero_add, strode.same, hptr]
  | succ k ih =>
    obtain ⟨hcell, cell, hlocate, rest⟩ := strode.first on
    rw [Nat.succ_add, Machine.scanFor, if_neg hcell, hlocate]
    exact ih rest

end Strode

/-- A scan that comes to a zero cell ends there. -/
theorem scanFor_of_found {k fuel : Nat} (strode : Strode stride k m u) (on : u.HasCell)
    (hcell : u.cell = 0) (enough : k < fuel) : m.scanFor stride fuel = .done () u := by
  obtain ⟨rest, rfl⟩ : ∃ rest, fuel = k + (rest + 1) := ⟨fuel - k - 1, by omega⟩
  rw [strode.scanFor on, scanFor, if_pos hcell]

/-- A scan that comes to the last cell on its way fails there. -/
theorem scanFor_of_edge {k fuel : Nat} {e : RunError} (strode : Strode stride k m u)
    (on : u.HasCell) (hcell : u.cell ≠ 0) (hlocate : u.locate stride = .error e)
    (enough : k < fuel) : m.scanFor stride fuel = .failed e u := by
  obtain ⟨rest, rfl⟩ : ∃ rest, fuel = k + (rest + 1) := ⟨fuel - k - 1, by omega⟩
  rw [strode.scanFor on, scanFor, if_neg hcell, hlocate]

/-! ## The end of a scan -/

section Ends

variable {k : Nat} (least : IsLeast {j : Nat | m.tape.Stops (m.ptr + j * stride)} k)
include least

theorem not_stops_of_lt {j : Nat} (hj : j < k) : ¬ m.tape.Stops (m.ptr + j * stride) := by
  intro hstop
  have := least.2 hstop
  omega

/-- A scan whose first place to stop is on the tape ends there, at a zero cell. -/
theorem exists_found (there : m.tape.Has (m.ptr + k * stride)) :
    ∃ cell : Nat, (cell : Int) = m.ptr + k * stride ∧ m.tape.get cell = 0 ∧
      ∀ fuel, k < fuel → m.scanFor stride fuel = .done () { m with ptr := cell } := by
  obtain ⟨cell, hcell⟩ := Int.eq_ofNat_of_zero_le there.1
  have hlt : cell < m.tape.size := by
    have := there.2
    omega
  have hzero : m.tape.get cell = 0 := by
    rcases least.1 with hoff | hzero
    · exact absurd there hoff
    · rw [hcell, Int.toNat_natCast] at hzero
      exact hzero
  have strode : Strode stride k m { m with ptr := cell } :=
    strode_of_not_stops hcell.symm fun j => not_stops_of_lt least
  exact ⟨cell, hcell.symm, hzero, fun fuel enough => scanFor_of_found strode hlt hzero enough⟩

/-- Any other scan fails one move in front of that place. -/
theorem exists_edge (on : m.HasCell) (off : ¬ m.tape.Has (m.ptr + k * stride)) :
    ∃ (cell : Nat) (e : RunError), (cell : Int) = m.ptr + (k - 1) * stride ∧
      HasCell { m with ptr := cell } ∧ locate { m with ptr := cell } stride = .error e ∧
      ∀ fuel, k ≤ fuel → m.scanFor stride fuel = .failed e { m with ptr := cell } := by
  obtain ⟨j, rfl⟩ : ∃ j, k = j + 1 := by
    refine Nat.exists_eq_succ_of_ne_zero ?_
    rintro rfl
    -- the scan starts on the tape
    apply off
    rw [Int.natCast_zero, Int.zero_mul, Int.add_zero]
    have on' : m.ptr < m.tape.size := on
    exact ⟨Int.natCast_nonneg _, by omega⟩
  obtain ⟨hhas, hnonzero⟩ := not_or.mp (not_stops_of_lt least (Nat.lt_succ_self j))
  obtain ⟨hge, hlt⟩ := not_not.mp hhas
  obtain ⟨cell, hcell⟩ := Int.eq_ofNat_of_zero_le hge
  rw [hcell, Int.toNat_natCast] at hnonzero
  have hon : HasCell { m with ptr := cell } := by
    show cell < m.tape.size
    omega
  have hnext : ¬ m.tape.Has (cell + stride) := by
    have : (cell : Int) + stride = m.ptr + (j + 1 : Nat) * stride := by
      push_cast
      rw [Int.add_mul]
      omega
    rw [this]
    exact off
  obtain ⟨e, hlocate⟩ : ∃ e, locate { m with ptr := cell } stride = .error e :=
    ⟨_, if_neg hnext⟩
  have strode : Strode stride j m { m with ptr := cell } :=
    strode_of_not_stops hcell.symm fun i hi => not_stops_of_lt least (by omega)
  refine ⟨cell, e, ?_, hon, hlocate, ?_⟩
  · push_cast
    rw [Int.add_sub_cancel]
    exact hcell.symm
  · intro fuel enough
    exact scanFor_of_edge strode hon hnonzero hlocate enough

end Ends

/-- How a step on a scan ends whose first place to stop is the `k`th. -/
structure ScanEnds (code : Code) (stride : Int) (k : Nat) (m : Machine) : Prop where
  /-- More than `k` looks make no difference. -/
  bounded : ∀ fuel, k < fuel → m.scanFor stride fuel = m.scan stride
  /-- If there is a cell, it is zero and the pointer goes there. -/
  found : m.tape.Has (m.ptr + k * stride) → ∃ cell : Nat, (cell : Int) = m.ptr + k * stride ∧
    m.tape.get cell = 0 ∧ m.step code = .done true (tick { m with ptr := cell })
  /-- If there is none, it is named, and the pointer stays one move in front of it. -/
  escaped : ¬ m.tape.Has (m.ptr + k * stride) →
    ∃ cell : Nat, (cell : Int) = m.ptr + (k - 1) * stride ∧
      m.step code =
        .failed (.offTape m.pc (clampOffset (m.ptr + k * stride))) { m with ptr := cell }

section Moving

variable (moving : stride ≠ 0) (on : m.HasCell)
include moving on

theorem scanEnds_of_isLeast (short : m.tape.size ≤ offsetMax)
    (hop : code[m.pc]? = some (.scan stride)) {k : Nat} (hk : k ≤ m.tape.size)
    (least : IsLeast {j : Nat | m.tape.Stops (m.ptr + j * stride)} k) :
    m.ScanEnds code stride k := by
  have hstep : m.step code = (m.scan stride).bind fun _ u => .done true u.tick :=
    step_of_op hop on
  by_cases there : m.tape.Has (m.ptr + k * stride)
  · obtain ⟨cell, hcell, hzero, hends⟩ := exists_found least there
    have hscan := hends m.tape.size (Tape.lt_size_of_has_moves moving on hk there)
    refine ⟨?_, ?_, fun off => absurd there off⟩
    · intro fuel enough
      rw [hends fuel enough, scan, hscan]
    · intro _
      refine ⟨cell, hcell, hzero, ?_⟩
      rw [hstep, scan, hscan]
      rfl
  · obtain ⟨cell, e, hcell, hon, hlocate, hends⟩ := exists_edge least on there
    have hscan := hends m.tape.size hk
    have hnext : (cell : Int) + stride = m.ptr + k * stride := by
      rw [hcell, Int.sub_mul]
      omega
    refine ⟨?_, fun hthere => absurd hthere there, ?_⟩
    · intro fuel enough
      rw [hends fuel (Nat.le_of_lt enough), scan, hscan]
    · intro _
      refine ⟨cell, hcell, ?_⟩
      rw [locate_of_short (m := { m with ptr := cell }) short hon, hnext, if_neg there] at hlocate
      cases hlocate
      rw [hstep, scan, hscan]
      rfl

/-- A scan that moves comes to an end. -/
theorem returned_scan : (m.scan stride).returned = true := by
  obtain ⟨k, hk, least⟩ := m.tape.exists_isLeast_stop moving on
  by_cases there : m.tape.Has (m.ptr + k * stride)
  · obtain ⟨cell, -, -, hends⟩ := exists_found least there
    rw [scan, hends m.tape.size (Tape.lt_size_of_has_moves moving on hk there)]
    rfl
  · obtain ⟨cell, e, -, -, -, hends⟩ := exists_edge least on there
    rw [scan, hends m.tape.size hk]
    rfl

end Moving

end Machine

/-! ## Steps that return -/

/-- A call in two parts returns if both of them do. -/
theorem Outcome.returned_bind {ε σ α β : Type} {o : Outcome ε σ α}
    {next : α → σ → Outcome ε σ β} (first : o.returned = true)
    (second : ∀ a s, o = .done a s → (next a s).returned = true) :
    (o.bind next).returned = true := by
  cases o with
  | done a s => exact second a s rfl
  | failed e s => rfl
  | unfinished => cases first

namespace Writer

/-- A writer that is given `n` bytes comes to interrupt the call forever: it is full
before it has them all, and from then on each write is interrupted. Interruptions that
come to an end (`Writer.interruptions`) do not count. -/
def Stalls (w : Writer) (n : Nat) : Prop :=
  ∃ room < n, w.room = some room ∧ w.refusal.isTransient = true

/-- The writer does not interrupt forever: it takes everything, or what it says when it
is full is no interruption. -/
def Answers (w : Writer) : Prop := w.room = none ∨ w.refusal.isTransient = false

theorem Answers.not_stalls {w : Writer} (answers : w.Answers) (n : Nat) : ¬ w.Stalls n := by
  rintro ⟨room, -, hroom, htransient⟩
  rcases answers with hnone | hlasting
  · rw [hnone] at hroom
    cases hroom
  · rw [hlasting] at htransient
    cases htransient

theorem stalls_of_full {w : Writer} (full : w.takes 1 = 0)
    (htransient : w.refusal.isTransient = true) (n : Nat) : w.Stalls (n + 1) := by
  cases hroom : w.room with
  | none => simp [takes, hroom] at full
  | some room =>
    have hzero : room = 0 := by simpa [takes, hroom] using full
    exact ⟨room, by omega, hroom, htransient⟩

/-- To give a byte in advance makes no difference. -/
theorem stalls_of_stalls_take {w : Writer} {n : Nat} (free : w.takes 1 ≠ 0)
    (h : (w.take 1).Stalls n) : w.Stalls (n + 1) := by
  obtain ⟨left, hleft, hroom, htransient⟩ := h
  obtain ⟨room, hsome, rfl⟩ := Option.map_eq_some_iff.mp hroom
  have hpos : room ≠ 0 := by
    rintro rfl
    exact free (by simp [takes, hsome])
  exact ⟨room, by omega, hsome, htransient⟩

end Writer

namespace Console

variable {c d : Console}

theorem answers_of_exchange (answers : c.writer.Answers) (h : Exchange c d) :
    d.writer.Answers := by
  cases h with
  | flush h =>
    unfold flush at h
    split at h
    · cases h
      exact answers
    · cases h
      exact answers
  | getByte h =>
    rcases c.getByte_cases with hfailed | ⟨d', asked, hget⟩
    · rw [hfailed] at h
      cases h
      exact answers
    · rw [hget, Reply.state?_outcome] at h
      cases h
      rw [asked.writer]
      exact answers
  | putByte b h =>
    rw [putByte_eq] at h
    split at h
    · split at h
      · cases h
      · cases h
        exact answers
    · cases h
      refine answers.imp ?_ id
      intro hroom
      simp [Writer.take, hroom]

/-- Such a writer stays like that. -/
theorem answers_of_exchanges (answers : c.writer.Answers) (h : Exchanges c d) :
    d.writer.Answers := by
  induction h with
  | refl => exact answers
  | tail _ hlast ih => exact answers_of_exchange ih hlast

end Console

namespace Machine

variable {code : Code} {m : Machine}

theorem returned_writeCell {n : Nat} (steady : ¬ m.console.writer.Stalls n) :
    (m.writeCell n).returned = true := by
  induction n generalizing m with
  | zero => rfl
  | succ n ih =>
    rw [writeCell, Console.putByte_eq]
    by_cases hfull : m.console.writer.takes 1 = 0
    · rw [if_pos hfull]
      have hlasting : ¬ m.console.writer.refusal.isTransient = true :=
        fun htransient => steady (Writer.stalls_of_full hfull htransient n)
      rw [if_neg hlasting]
      rfl
    · rw [if_neg hfull]
      exact ih fun hstalls => steady (Writer.stalls_of_stalls_take hfull hstalls)

theorem returned_move (m : Machine) (d : Int) : (m.move d).returned = true := by
  unfold move
  split <;> rfl

theorem returned_transfer (m : Machine) (d : Int) : (m.transfer d).returned = true := by
  unfold transfer
  dsimp only
  split
  · rfl
  · split <;> rfl

/-- Only a scan that stands still and a write that is interrupted forever may not
return. -/
theorem returned_exec {op : Op} (on : m.HasCell)
    (moving : ∀ stride, op = .scan stride → stride ≠ 0)
    (steady : ∀ n, op = .run .write n → ¬ m.console.writer.Stalls n) :
    (m.exec op).returned = true := by
  cases op with
  | run a n =>
    cases a with
    | right => exact m.returned_move _
    | left => exact m.returned_move _
    | inc => rfl
    | dec => rfl
    | write => exact returned_writeCell (steady n rfl)
    | read => exact m.returned_readCell n
  | jumpZero target => rfl
  | jumpNonzero target => rfl
  | clear => rfl
  | scan stride => exact returned_scan (moving stride rfl) on
  | transfer offset => exact m.returned_transfer offset
  | trap => rfl

section Code

variable (moving : ∀ (i : Nat) stride, code[i]? = some (.scan stride) → stride ≠ 0)
include moving

theorem returned_step
    (steady : ∀ n, code[m.pc]? = some (.run .write n) → ¬ m.console.writer.Stalls n) :
    (m.step code).returned = true := by
  unfold step
  split
  · rfl
  · rename_i op hop
    split
    · rename_i on
      refine Outcome.returned_bind (returned_exec on ?_ ?_) fun _ _ _ => rfl
      · rintro stride rfl
        exact moving m.pc stride hop
      · rintro n rfl
        exact steady n hop
    · rfl

theorem returned_advance (answers : m.console.writer.Answers) (n : Nat) :
    (m.advance code n).returned = true := by
  induction n generalizing m with
  | zero => rfl
  | succ n ih =>
    have hstep := returned_step moving fun n _ => answers.not_stalls n
    rw [advance]
    cases hanswer : m.step code with
    | done more u =>
      have hu : u.console.writer.Answers :=
        Console.answers_of_exchanges answers (exchanges_of_step (by rw [hanswer]; rfl))
      cases more with
      | true => exact ih hu
      | false => rfl
    | failed e u => rfl
    | unfinished =>
      rw [hanswer] at hstep
      cases hstep

theorem returned_runAtMost (answers : m.console.writer.Answers) (limit : Nat) :
    (m.runAtMost code limit).returned = true := by
  refine Outcome.returned_bind (returned_advance moving answers limit) ?_
  intro _ u _
  exact Outcome.returned_bind u.returned_flush fun _ _ _ => rfl

end Code

end Machine

/-- The scans of a compiled array move. -/
theorem moving_of_compile {p : List UInt8} {code : Code}
    (accepted : (compile p).result = .ok code) (i : Nat) (stride : Int)
    (h : code[i]? = some (.scan stride)) : stride ≠ 0 := by
  obtain ⟨b, tight, -, rfl⟩ := exists_block_of_compile accepted
  rw [Block.code, List.getElem?_toArray] at h
  exact tight.proper_of_mem_lower _ (List.mem_of_getElem? h)

/-- **A scan stops at the first place where it must, and every step comes to an end.**
From a cell of a tape that offsets can measure, a scan that moves has a first place to
stop at, no more moves away than there are cells. If that is a zero cell, the pointer
goes there; else the step fails, names that place, and leaves the pointer one move in
front of it. Nothing else changes. So a step of a compiled array returns, unless it
writes and the writer interrupts it forever. With a writer that never does so, limited
runs return too. -/
theorem scan_stops_at_first :
    (∀ (code : Code) (m : Machine) (stride : Int), code[m.pc]? = some (.scan stride) →
      stride ≠ 0 → m.HasCell → m.tape.size ≤ offsetMax →
      ∃ k ≤ m.tape.size, IsLeast {j : Nat | m.tape.Stops (m.ptr + j * stride)} k ∧
        m.ScanEnds code stride k) ∧
    ∀ (p : List UInt8) (code : Code) (m : Machine), (compile p).result = .ok code →
      ((∀ n, code[m.pc]? = some (.run .write n) → ¬ m.console.writer.Stalls n) →
        (m.step code).returned = true) ∧
      (m.console.writer.Answers → ∀ limit, (m.runAtMost code limit).returned = true) := by
  refine ⟨?_, ?_⟩
  · intro code m stride hop moving on short
    obtain ⟨k, hk, least⟩ := m.tape.exists_isLeast_stop moving on
    exact ⟨k, hk, least, Machine.scanEnds_of_isLeast moving on short hop hk least⟩
  · intro p code m accepted
    have moving := moving_of_compile accepted
    exact ⟨Machine.returned_step moving, Machine.returned_runAtMost moving⟩

/-- A scan to the left that finds a zero cell two moves away, one to the right that
leaves the tape at once, a write that is interrupted five times and just fits into a
writer that would then interrupt forever, and limited runs with a writer that soon is
full. -/
theorem scan_stops_at_first_leftward :
    (∃ k ≤ 4, IsLeast {j : Nat | Tape.Stops ⟨#[1, 0, 5, 7]⟩ ((3 : Nat) + j * (-1))} k ∧
      Machine.ScanEnds #[.scan (-1)] (-1) k { tape := ⟨#[1, 0, 5, 7]⟩, ptr := 3 }) ∧
    (∃ k ≤ 4, IsLeast {j : Nat | Tape.Stops ⟨#[1, 0, 5, 7]⟩ ((3 : Nat) + j * offsetMax)} k ∧
      Machine.ScanEnds #[.scan offsetMax] offsetMax k { tape := ⟨#[1, 0, 5, 7]⟩, ptr := 3 }) ∧
    (compile "+..[>]".toUTF8.data.toList).result =
      .ok #[.run .inc 1, .run .write 2, .scan 1] ∧
    (Machine.step #[.run .inc 1, .run .write 2, .scan 1]
      { tape := .blank 1, pc := 1,
        console := { writer := {
          room := some 2, fault := ⟨.interrupted, ""⟩, interruptions := [3, 2] } } }).returned =
      true ∧
    ∀ limit, ((Machine.start 1 { writer := { room := some 1, interruptions := [4] } }).runAtMost
      #[.run .inc 1, .run .write 2, .scan 1] limit).returned = true := by
  have on : Machine.HasCell { tape := ⟨#[1, 0, 5, 7]⟩, ptr := 3 } := by
    show 3 < 4
    decide
  have accepted : (compile "+..[>]".toUTF8.data.toList).result =
      .ok #[.run .inc 1, .run .write 2, .scan 1] := by decide +kernel
  have answers : Writer.Answers { room := some 1, interruptions := [4] } := .inr rfl
  refine ⟨?_, ?_, accepted, ?_, ?_⟩
  · exact scan_stops_at_first.1 #[.scan (-1)] { tape := ⟨#[1, 0, 5, 7]⟩, ptr := 3 } (-1) rfl
      (by decide) on (by decide)
  · exact scan_stops_at_first.1 #[.scan offsetMax] { tape := ⟨#[1, 0, 5, 7]⟩, ptr := 3 } offsetMax
      rfl (by decide) on (by decide)
  · refine (scan_stops_at_first.2 _ _ _ accepted).1 ?_
    rintro n hop ⟨room, hlt, hroom, -⟩
    cases hop
    cases hroom
    exact absurd hlt (by decide)
  · exact (scan_stops_at_first.2 _ _ _ accepted).2 answers

end Brainfuck
