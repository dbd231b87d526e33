import Brainfuck.Proofs.PlainRun
import Mathlib.Data.Int.GCD
import Mathlib.Data.Nat.ModEq
import Mathlib.Tactic.Ring

/-!
# Plain runs of the loops that are fused

What the loops behind `Op.fuse?` do when their bytes are executed one at a
time:

* **moving** — `n` bytes `>` or `<` are one move by `n`, on the tape or off it
  (`acts_right`, `acts_left`);
* **giving** — a loop that takes one from its cell and gives one to another
  cell ends when everything is there (`Loop.reaches_give`);
* **clearing** — a loop that adds the same number in each round ends with a
  zero cell if some number of rounds brings the cell to zero
  (`Loop.reaches_zero`), and never ends if there is no such number
  (`Loop.endless_of_ne_zero`). With `n` bytes `+`, or `n` bytes `-`, a cell
  `v` gets to zero exactly if `gcd n 256` divides `v`
  (`exists_add_mul_eq_zero_iff`).
-/

namespace Brainfuck.Plain

namespace State

variable {s t u : State}

/-! ## One round of each body -/

theorem setCell_cell (s : State) : s.setCell s.cell = s := by
  unfold setCell cell
  rw [Tape.set_get]

theorem setCell_setCell (s : State) (v w : UInt8) : (s.setCell v).setCell w = s.setCell w := by
  unfold setCell
  simp only [Tape.set_set]

theorem cell_setCell (onTape : s.ptr < s.tape.size) (v : UInt8) : (s.setCell v).cell = v :=
  Tape.get_set_self v onTape

theorem acts_inc (n : Nat) (onTape : s.ptr < s.tape.size) :
    s.acts (List.replicate n .inc) = some (s.setCell (s.cell + UInt8.ofNat n)) := by
  induction n generalizing s with
  | zero =>
    show some s = _
    rw [show s.cell + UInt8.ofNat 0 = s.cell by simp, setCell_cell]
  | succ n ih =>
    have hon : (s.setCell (s.cell + 1)).ptr < (s.setCell (s.cell + 1)).tape.size := by
      simpa [setCell] using onTape
    rw [List.replicate_succ]
    show (s.setCell (s.cell + 1)).acts (List.replicate n .inc) = _
    rw [ih hon, cell_setCell onTape, setCell_setCell]
    have hsum : s.cell + 1 + UInt8.ofNat n = s.cell + UInt8.ofNat (n + 1) := by
      rw [UInt8.ofNat_add]
      grind
    rw [hsum]

theorem acts_dec (n : Nat) (onTape : s.ptr < s.tape.size) :
    s.acts (List.replicate n .dec) = some (s.setCell (s.cell - UInt8.ofNat n)) := by
  induction n generalizing s with
  | zero =>
    show some s = _
    rw [show s.cell - UInt8.ofNat 0 = s.cell by simp, setCell_cell]
  | succ n ih =>
    have hon : (s.setCell (s.cell - 1)).ptr < (s.setCell (s.cell - 1)).tape.size := by
      simpa [setCell] using onTape
    rw [List.replicate_succ]
    show (s.setCell (s.cell - 1)).acts (List.replicate n .dec) = _
    rw [ih hon, cell_setCell onTape, setCell_setCell]
    have hdiff : s.cell - 1 - UInt8.ofNat n = s.cell - UInt8.ofNat (n + 1) := by
      rw [UInt8.ofNat_add]
      grind
    rw [hdiff]

/-- Behind the end of the input there is nothing more to read. -/
theorem acts_read_of_nil (n : Nat) (h : s.unread = []) :
    s.acts (List.replicate n .read) = some s := by
  induction n with
  | zero => rfl
  | succ n ih =>
    have hact : s.act .read = some s := by simp [act, h]
    rw [List.replicate_succ, acts, hact]
    exact ih

/-- The cell `d` away from the current one, if it is on the tape. -/
def locate (s : State) (d : Int) : Option Nat :=
  if 0 ≤ s.ptr + d ∧ s.ptr + d < s.tape.size then some (s.ptr + d).toNat else none

/-- The state with its pointer moved by `d`, if that is on the tape. -/
def moveBy (s : State) (d : Int) : Option State :=
  (s.locate d).map fun i => { s with ptr := i }

theorem locate_eq_some_iff {d : Int} {i : Nat} :
    s.locate d = some i ↔ i < s.tape.size ∧ (i : Int) = s.ptr + d := by
  unfold locate
  split
  · simp only [Option.some.injEq]
    omega
  · simp only [reduceCtorEq, false_iff]
    omega

theorem moveBy_zero (onTape : s.ptr < s.tape.size) : s.moveBy 0 = some s := by
  have h : s.locate 0 = some s.ptr := locate_eq_some_iff.mpr ⟨onTape, by omega⟩
  rw [moveBy, h]
  rfl

theorem acts_right (n : Nat) (onTape : s.ptr < s.tape.size) :
    s.acts (List.replicate n .right) = s.moveBy n := by
  induction n generalizing s with
  | zero => exact (moveBy_zero onTape).symm
  | succ n ih =>
    rw [List.replicate_succ, acts, act]
    by_cases h : s.ptr + 1 < s.tape.size
    · rw [if_pos h]
      show ({ s with ptr := s.ptr + 1 } : State).acts (List.replicate n .right) = _
      have hsame : ({ s with ptr := s.ptr + 1 } : State).locate n = s.locate ↑(n + 1) := by
        simp only [locate]
        congr 1 <;> grind
      rw [ih h, moveBy, moveBy, hsame]
    · rw [if_neg h, moveBy, locate, if_neg (by omega)]
      rfl

theorem acts_left (n : Nat) (onTape : s.ptr < s.tape.size) :
    s.acts (List.replicate n .left) = s.moveBy (-n) := by
  induction n generalizing s with
  | zero => exact (moveBy_zero onTape).symm
  | succ n ih =>
    rw [List.replicate_succ, acts, act]
    by_cases h : 0 < s.ptr
    · rw [if_pos h]
      show ({ s with ptr := s.ptr - 1 } : State).acts (List.replicate n .left) = _
      have hsame : ({ s with ptr := s.ptr - 1 } : State).locate (-n) = s.locate (-↑(n + 1)) := by
        simp only [locate]
        congr 1 <;> grind
      rw [ih (show s.ptr - 1 < s.tape.size by omega), moveBy, moveBy, hsame]
    · rw [if_neg h, moveBy, locate, if_neg (by omega)]
      rfl

/-- The state with one taken from the current cell and given to another. -/
def giveOne (s : State) (dst : Nat) : State :=
  { s with tape := (s.tape.set s.ptr (s.cell - 1)).set dst (s.tape.get dst + 1) }

/-- The state with all of the current cell given to another. -/
def giveAll (s : State) (dst : Nat) : State :=
  { s with tape := (s.tape.set dst (s.tape.get dst + s.cell)).set s.ptr 0 }

/-- Taking one, going somewhere else, giving one and coming back. -/
theorem acts_give {there back : List Action} {d : Int} (hd : d ≠ 0)
    (hthere : ∀ u : State, u.ptr < u.tape.size → u.acts there = u.moveBy d)
    (hback : ∀ u : State, u.ptr < u.tape.size → u.acts back = u.moveBy (-d))
    (onTape : s.ptr < s.tape.size) :
    s.acts (.dec :: (there ++ .inc :: back)) = (s.locate d).map s.giveOne := by
  have htaken : (s.setCell (s.cell - 1)).ptr < (s.setCell (s.cell - 1)).tape.size := by
    simpa [setCell] using onTape
  have hlocate : (s.setCell (s.cell - 1)).locate d = s.locate d := by
    simp [locate, setCell]
  show (s.setCell (s.cell - 1)).acts (there ++ .inc :: back) = _
  rw [acts_append, hthere _ htaken, moveBy, hlocate]
  cases hdst : s.locate d with
  | none => rfl
  | some dst =>
    obtain ⟨hsize, hptr⟩ := locate_eq_some_iff.mp hdst
    have hne : s.ptr ≠ dst := by omega
    -- giving one to `dst` does not see that `s.ptr` has one less
    have hgive : ({ s.setCell (s.cell - 1) with ptr := dst } : State).setCell
        (({ s.setCell (s.cell - 1) with ptr := dst } : State).cell + 1) =
        { s.giveOne dst with ptr := dst } := by
      simp only [setCell, cell, giveOne, Tape.get_set_ne _ _ hne]
    have hhome : ({ s.giveOne dst with ptr := dst } : State).locate (-d) = some s.ptr := by
      refine locate_eq_some_iff.mpr ⟨by simpa [giveOne] using onTape, ?_⟩
      show (s.ptr : Int) = dst + -d
      omega
    show (({ s.setCell (s.cell - 1) with ptr := dst } : State).setCell
        (({ s.setCell (s.cell - 1) with ptr := dst } : State).cell + 1)).acts back = _
    rw [hgive, hback _ (by simpa [giveOne] using hsize), moveBy, hhome]
    rfl

theorem cell_giveOne {dst : Nat} (onTape : s.ptr < s.tape.size) (hne : s.ptr ≠ dst) :
    (s.giveOne dst).cell = s.cell - 1 := by
  show ((s.tape.set s.ptr (s.cell - 1)).set dst (s.tape.get dst + 1)).get s.ptr = _
  rw [Tape.get_set_ne _ _ hne.symm, Tape.get_set_self _ onTape]

theorem giveAll_giveOne {dst : Nat} (onTape : s.ptr < s.tape.size) (hdst : dst < s.tape.size)
    (hne : s.ptr ≠ dst) : (s.giveOne dst).giveAll dst = s.giveAll dst := by
  have hget : (s.giveOne dst).tape.get dst = s.tape.get dst + 1 :=
    Tape.get_set_self _ (by simpa using hdst)
  have hsum : s.tape.get dst + 1 + (s.cell - 1) = s.tape.get dst + s.cell := by grind
  unfold giveAll
  rw [hget, cell_giveOne onTape hne, hsum]
  simp only [giveOne, Tape.set_set]
  rw [Tape.set_comm _ _ _ hne, Tape.set_set]

theorem giveAll_of_cell_eq_zero {dst : Nat} (hzero : s.cell = 0) : s.giveAll dst = s := by
  have hnothing : s.tape.get dst + 0 = s.tape.get dst := by grind
  have hown : s.tape.set s.ptr 0 = s.tape := by
    rw [← hzero]
    exact Tape.set_get _ _
  unfold giveAll
  rw [hzero, hnothing, Tape.set_get, hown]

end State

/-! ## Giving -/

namespace Loop

variable {program : List UInt8} {s t : State} {first last : Nat} {actions : List Action}

/-- A loop that gives one away in each round gives all away. -/
theorem reaches_give (loop : Loop program first last (actions.map Action.byte)) {d : Int}
    (round : ∀ u : State, u.ptr < u.tape.size → u.acts actions = (u.locate d).map u.giveOne)
    (hd : d ≠ 0) {dst : Nat} (test : s.pos = first ∨ s.pos = last)
    (onTape : s.ptr < s.tape.size) (hdst : s.locate d = some dst) :
    Reaches program s ((s.giveAll dst).goto (last + 1)) := by
  obtain ⟨hsize, hptr⟩ := State.locate_eq_some_iff.mp hdst
  have hne : s.ptr ≠ dst := by omega
  -- the value of the cell counts the rounds
  obtain ⟨n, hn⟩ : ∃ n, s.cell.toNat = n := ⟨_, rfl⟩
  induction n generalizing s with
  | zero =>
    have hzero : s.cell = 0 := UInt8.toNat_inj.mp hn
    rw [State.giveAll_of_cell_eq_zero hzero]
    exact loop.reaches_exit test hzero
  | succ n ih =>
    have hcell : s.cell ≠ 0 := by
      intro hzero
      rw [hzero] at hn
      cases hn
    have hround : s.acts actions = some (s.giveOne dst) := by
      rw [round s onTape, hdst]
      rfl
    have hless : (s.giveOne dst).cell.toNat = n := by
      rw [State.cell_giveOne onTape hne, UInt8.toNat_sub, hn, UInt8.toNat_one]
      have := s.cell.toNat_lt
      omega
    have hrest := ih (s := (s.giveOne dst).goto last) (.inr rfl)
      (by simpa [State.goto, State.giveOne] using onTape)
      (by simpa [State.locate, State.goto, State.giveOne] using hdst)
      (by simpa [State.goto, State.giveOne] using hsize) hptr hne hless
    rw [← State.giveAll_giveOne onTape hsize hne]
    exact (loop.reaches_round test hcell hround).trans hrest

end Loop

/-! ## Clearing -/

private theorem add_ofNat_mul_eq_zero_iff (v : UInt8) (k n : Nat) :
    v + UInt8.ofNat k * UInt8.ofNat n = 0 ↔ 256 ∣ v.toNat + k * n := by
  rw [← UInt8.toNat_inj, Nat.dvd_iff_mod_eq_zero]
  simp [UInt8.toNat_add, UInt8.toNat_mul]

/-- Adding `n` again and again brings `v` to zero exactly if `gcd n 256` divides
`v`. -/
theorem exists_add_mul_eq_zero_iff (v : UInt8) (n : Nat) :
    (∃ k, v + UInt8.ofNat k * UInt8.ofNat n = 0) ↔ n.gcd 256 ∣ v.toNat := by
  constructor
  · rintro ⟨k, hk⟩
    have hsum : n.gcd 256 ∣ v.toNat + k * n :=
      (n.gcd_dvd_right 256).trans ((add_ofNat_mul_eq_zero_iff v k n).mp hk)
    have hrounds : n.gcd 256 ∣ k * n := (n.gcd_dvd_left 256).mul_left k
    exact (Nat.dvd_add_left hrounds).mp hsum
  · rintro ⟨w, hw⟩
    rcases Nat.lt_or_ge (n.gcd 256) 256 with hlt | hge
    · -- `m` rounds add the divisor, so `255 * m * w` rounds take `v` away
      obtain ⟨m, -, hm⟩ := Nat.exists_mul_mod_eq_gcd hlt
      refine ⟨255 * (m * w), (add_ofNat_mul_eq_zero_iff ..).mpr ?_⟩
      have hcongr : n * m ≡ n.gcd 256 [MOD 256] := by
        rw [Nat.ModEq, hm, Nat.mod_eq_of_lt hlt]
      have hzero : v.toNat + 255 * (m * w) * n ≡ 0 [MOD 256] := calc
        v.toNat + 255 * (m * w) * n = v.toNat + 255 * ((n * m) * w) := by ring
        _ ≡ v.toNat + 255 * (n.gcd 256 * w) [MOD 256] :=
          ((hcongr.mul_right w).mul_left 255).add_left _
        _ = 256 * v.toNat := by rw [← hw]; ring
        _ ≡ 0 [MOD 256] := by simp [Nat.ModEq]
      exact (Nat.modEq_zero_iff_dvd).mp hzero
    · -- the divisor is 256 itself, and `v` is zero
      have hnot := v.toNat_lt
      have hv : v.toNat = 0 := by
        rcases Nat.eq_zero_or_pos w with rfl | hpos
        · simpa using hw
        · have := Nat.le_mul_of_pos_right (n.gcd 256) hpos
          omega
      exact ⟨0, (add_ofNat_mul_eq_zero_iff ..).mpr (by simp [hv])⟩

/-- Subtracting gets to zero from where adding does. -/
theorem exists_add_mul_neg_eq_zero_iff (v d : UInt8) :
    (∃ k, v + UInt8.ofNat k * -d = 0) ↔ ∃ k, v + UInt8.ofNat k * d = 0 := by
  have hneg : ∀ k, UInt8.ofNat (255 * k) = -UInt8.ofNat k := by
    intro k
    rw [UInt8.ofNat_mul]
    grind
  constructor
  · rintro ⟨k, hk⟩
    refine ⟨255 * k, ?_⟩
    rw [hneg]
    grind
  · rintro ⟨k, hk⟩
    refine ⟨255 * k, ?_⟩
    rw [hneg]
    grind

namespace Loop

variable {program : List UInt8} {s : State} {first last : Nat} {actions : List Action} {d : UInt8}

theorem reaches_exit_setCell {body : List UInt8} (loop : Loop program first last body)
    (test : s.pos = first ∨ s.pos = last) (hzero : s.cell = 0) :
    Reaches program s ((s.setCell 0).goto (last + 1)) := by
  have hsame : s.setCell 0 = s := by
    rw [← hzero]
    exact s.setCell_cell
  rw [hsame]
  exact loop.reaches_exit test hzero

/-- A loop that adds `d` in each round is left as soon as that gives zero. -/
theorem reaches_zero (loop : Loop program first last (actions.map Action.byte))
    (round : ∀ u : State, u.ptr < u.tape.size → u.acts actions = some (u.setCell (u.cell + d)))
    {k : Nat} (test : s.pos = first ∨ s.pos = last) (onTape : s.ptr < s.tape.size)
    (hk : s.cell + UInt8.ofNat k * d = 0) :
    Reaches program s ((s.setCell 0).goto (last + 1)) := by
  induction k generalizing s with
  | zero => exact loop.reaches_exit_setCell test (by simpa using hk)
  | succ k ih =>
    by_cases hcell : s.cell = 0
    · exact loop.reaches_exit_setCell test hcell
    · have hnext : ((s.setCell (s.cell + d)).goto last).cell + UInt8.ofNat k * d = 0 := by
        show (s.setCell (s.cell + d)).cell + _ = 0
        rw [State.cell_setCell onTape]
        rw [UInt8.ofNat_add] at hk
        grind
      have hrest := ih (s := (s.setCell (s.cell + d)).goto last) (.inr rfl)
        (by simpa [State.goto, State.setCell] using onTape) hnext
      rw [← State.setCell_setCell s (s.cell + d)]
      exact (loop.reaches_round test hcell (round s onTape)).trans hrest

/-- It is never left if no number of rounds gives zero. -/
theorem endless_of_ne_zero (loop : Loop program first last (actions.map Action.byte))
    (round : ∀ u : State, u.ptr < u.tape.size → u.acts actions = some (u.setCell (u.cell + d)))
    (test : s.pos = first ∨ s.pos = last) (onTape : s.ptr < s.tape.size)
    (never : ∀ k, s.cell + UInt8.ofNat k * d ≠ 0) : Endless program s := by
  apply endless_of_progress (P := fun u => (u.pos = first ∨ u.pos = last) ∧
    u.ptr < u.tape.size ∧ ∀ k, u.cell + UInt8.ofNat k * d ≠ 0) _ ⟨test, onTape, never⟩
  rintro u ⟨htest, hon, hnever⟩
  have hcell : u.cell ≠ 0 := by simpa using hnever 0
  refine ⟨_, loop.reaches_round htest hcell (round u hon), .inr rfl, ?_, ?_⟩
  · simpa [State.goto, State.setCell] using hon
  · intro k
    show (u.setCell (u.cell + d)).cell + _ ≠ 0
    rw [State.cell_setCell hon]
    -- one round is one step closer to every number of rounds
    have hlater := hnever (k + 1)
    rw [UInt8.ofNat_add] at hlater
    grind

end Loop

/-- A run of `+` or of `-` adds the same number in each round, and how far that
gets depends on the length of the run alone. -/
theorem exists_round {a : Action} (ha : a = .inc ∨ a = .dec) (n : Nat) :
    ∃ d : UInt8,
      (∀ u : State, u.ptr < u.tape.size →
        u.acts (List.replicate n a) = some (u.setCell (u.cell + d))) ∧
      ∀ v : UInt8, (∃ k, v + UInt8.ofNat k * d = 0) ↔ n.gcd 256 ∣ v.toNat := by
  rcases ha with rfl | rfl
  · exact ⟨UInt8.ofNat n, fun u => State.acts_inc n, fun v => exists_add_mul_eq_zero_iff v n⟩
  · refine ⟨-UInt8.ofNat n, ?_, ?_⟩
    · intro u hon
      rw [State.acts_dec n hon, UInt8.sub_eq_add_neg]
    · intro v
      rw [exists_add_mul_neg_eq_zero_iff, exists_add_mul_eq_zero_iff]

namespace Loop

variable {program : List UInt8} {s : State} {first last n : Nat} {a : Action}

theorem reaches_clear (loop : Loop program first last (List.replicate n a.byte))
    (ha : a = .inc ∨ a = .dec) (test : s.pos = first ∨ s.pos = last)
    (onTape : s.ptr < s.tape.size) (h : n.gcd 256 ∣ s.cell.toNat) :
    Reaches program s ((s.setCell 0).goto (last + 1)) := by
  obtain ⟨d, hround, hzero⟩ := exists_round ha n
  obtain ⟨k, hk⟩ := (hzero s.cell).mpr h
  rw [← List.map_replicate] at loop
  exact loop.reaches_zero hround test onTape hk

theorem endless_clear (loop : Loop program first last (List.replicate n a.byte))
    (ha : a = .inc ∨ a = .dec) (test : s.pos = first ∨ s.pos = last)
    (onTape : s.ptr < s.tape.size) (h : ¬ n.gcd 256 ∣ s.cell.toNat) : Endless program s := by
  obtain ⟨d, hround, hzero⟩ := exists_round ha n
  rw [← List.map_replicate] at loop
  apply loop.endless_of_ne_zero hround test onTape
  intro k hk
  exact h ((hzero s.cell).mp ⟨k, hk⟩)

end Loop

/-! ## Spinning -/

/-- The run is in front of a loop that only adds or only subtracts, and no number
of rounds brings the cell to zero. -/
def Spins (program : List UInt8) (s : State) : Prop :=
  ∃ (a : Action) (n : Nat) (rest : List UInt8), (a = .inc ∨ a = .dec) ∧ 0 < n ∧
    program.drop s.pos = Op.bracket (List.replicate n a.byte) ++ rest ∧
    ¬ n.gcd 256 ∣ s.cell.toNat

theorem Spins.endless {program : List UInt8} {s : State} (spins : Spins program s)
    (onTape : s.ptr < s.tape.size) : Endless program s := by
  obtain ⟨a, n, rest, ha, -, htext, hnever⟩ := spins
  have hpos : s.pos ≤ program.length := by
    by_contra hbeyond
    rw [List.drop_eq_nil_of_le (by omega)] at htext
    cases htext
  have hloop := loop_bracket (program.take s.pos) rest (Block.empty.act a n)
  have hsource : (Block.empty.act a n).source = List.replicate n a.byte := by simp [Block.source]
  rw [hsource, ← htext, List.take_append_drop, List.length_take_of_le hpos] at hloop
  exact hloop.endless_clear ha (.inl rfl) onTape hnever

end Brainfuck.Plain
