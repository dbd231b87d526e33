import Brainfuck.Proofs.Footing

/-!
# The guarded machine

The machine computes with numbers of any size, finds a zero in a cell that is
not on the tape, and loses what is stored there. The guarded machine allows
itself none of this. It does the same work, but

* a number that it comes to must fit: counts, indices and the pointer are
  counters (`Guarded.counter`), distances and reported cells are offsets
  (`Guarded.offset`);
* a cell that it uses must be on the tape (`Guarded.load`, `Guarded.store`).

Where that is not so it has no outcome at all. Each of its functions stands in
front of the lemma that it has one after all, and that it is the outcome of the
plain machine, as long as there is a current cell. Since sessions keep their
pointer on the tape (`Placed.kept`), they never meet a guard that stops them.

The main result is `guarded_session`.
-/

namespace Brainfuck

/-- The arguments of the operation fit: a run length and a target are counters,
a stride is an offset. -/
def Op.Fits : Op → Prop
  | .run _ n => n ≤ counterMax
  | .jumpZero target | .jumpNonzero target => target ≤ counterMax
  | .scan d | .transfer d => offsetMin ≤ d ∧ d ≤ offsetMax
  | .clear | .trap => True

theorem le_clampOffset (x : Int) : offsetMin ≤ clampOffset x := by
  unfold clampOffset
  omega

theorem clampOffset_le (x : Int) : clampOffset x ≤ offsetMax := by
  unfold clampOffset offsetMin offsetMax
  omega

namespace Guarded

open Machine

variable {code : Code} {m u : Machine}

/-! ## The guards -/

/-- The number, if a counter can hold it. -/
def counter (n : Nat) : Option Nat := if n ≤ counterMax then some n else none

/-- The number, if an offset can hold it. -/
def offset (x : Int) : Option Int := if offsetMin ≤ x ∧ x ≤ offsetMax then some x else none

/-- The value of a cell, if it is on the tape. -/
def load (t : Tape) (i : Nat) : Option UInt8 := t.cells[i]?

/-- The tape with another value in a cell, if the cell is on the tape. -/
def store (t : Tape) (i : Nat) (v : UInt8) : Option Tape :=
  if i < t.size then some (t.set i v) else none

theorem counter_eq {n : Nat} (h : n ≤ counterMax) : counter n = some n := if_pos h

theorem offset_eq {x : Int} (h : offsetMin ≤ x ∧ x ≤ offsetMax) : offset x = some x := if_pos h

theorem offset_reach (n : Nat) : offset (reach n) = some (reach n) := by
  have hle := reach_le n
  have hge := reach_nonneg n
  exact offset_eq ⟨by unfold offsetMin; omega, hle⟩

theorem load_eq {t : Tape} {i : Nat} (h : i < t.size) : load t i = some (t.get i) := by
  have hi : i < t.cells.size := h
  simp [load, Tape.get, hi]

theorem store_eq {t : Tape} {i : Nat} (h : i < t.size) (v : UInt8) :
    store t i v = some (t.set i v) := if_pos h

/-- Go on after a call that succeeded. -/
def andThen {ε σ α β : Type} (o : Option (Outcome ε σ α))
    (next : α → σ → Option (Outcome ε σ β)) : Option (Outcome ε σ β) :=
  match o with
  | some (.done a s) => next a s
  | some (.failed e s) => some (.failed e s)
  | some .unfinished => some .unfinished
  | none => none

theorem andThen_eq {ε σ α β : Type} {o : Outcome ε σ α}
    {next : α → σ → Option (Outcome ε σ β)} {plain : α → σ → Outcome ε σ β}
    (h : ∀ a s, o = .done a s → next a s = some (plain a s)) :
    andThen (some o) next = some (o.bind plain) := by
  cases o with
  | done a s => exact h a s rfl
  | failed e s => rfl
  | unfinished => rfl

/-! ## Moving -/

/-- `Machine.locate`. A sum that is no counter is no cell, which is not a fault;
the cell that is reported then is an offset. -/
def locate (m : Machine) (d : Int) : Option (Except RunError Nat) :=
  let target : Int := m.ptr + d
  if 0 ≤ target ∧ target ≤ counterMax ∧ target < m.tape.size then
    (counter target.toNat).map .ok
  else do
    let here ← offset (reach m.ptr)
    let cell ← offset (clampOffset (here + d))
    return .error (.offTape m.pc cell)

theorem locate_eq (short : m.tape.size ≤ offsetMax) (d : Int) :
    locate m d = some (m.locate d) := by
  have hmax : offsetMax ≤ counterMax := by decide
  unfold locate Machine.locate
  dsimp only
  by_cases htarget : 0 ≤ (m.ptr : Int) + d ∧ (m.ptr : Int) + d < m.tape.size
  · have hin : 0 ≤ (m.ptr : Int) + d ∧ (m.ptr : Int) + d ≤ counterMax ∧
        (m.ptr : Int) + d < m.tape.size := by omega
    have hcell : ((m.ptr : Int) + d).toNat ≤ counterMax := by omega
    rw [if_pos hin, if_pos htarget, counter_eq hcell]
    rfl
  · have hout : ¬(0 ≤ (m.ptr : Int) + d ∧ (m.ptr : Int) + d ≤ counterMax ∧
        (m.ptr : Int) + d < m.tape.size) := by omega
    rw [if_neg hout, if_neg htarget, offset_reach]
    dsimp only [Option.bind_eq_bind, Option.bind_some]
    rw [offset_eq ⟨le_clampOffset _, clampOffset_le _⟩]
    rfl

def move (d : Int) (m : Machine) : Option (Outcome RunError Machine Unit) := do
  match ← locate m d with
  | .ok cell => return .done () { m with ptr := cell }
  | .error e => return .failed e m

theorem move_eq (short : m.tape.size ≤ offsetMax) (d : Int) : move d m = some (m.move d) := by
  unfold move Machine.move
  rw [locate_eq short]
  cases m.locate d with
  | ok cell => rfl
  | error e => rfl

def scanFor (stride : Int) : Nat → Machine → Option (Outcome RunError Machine Unit)
  | 0, _ => some .unfinished
  | fuel + 1, m => do
    let v ← load m.tape m.ptr
    if v = 0 then return .done () m
    else
      match ← locate m stride with
      | .ok cell => scanFor stride fuel { m with ptr := cell }
      | .error e => return .failed e m

theorem scanFor_eq (short : m.tape.size ≤ offsetMax) (on : m.HasCell) (stride : Int)
    (fuel : Nat) : scanFor stride fuel m = some (m.scanFor stride fuel) := by
  induction fuel generalizing m with
  | zero => rfl
  | succ fuel ih =>
    rw [scanFor, Machine.scanFor, load_eq on, locate_eq short]
    show (if m.cell = 0 then _ else _) = some (if m.cell = 0 then _ else _)
    by_cases hcell : m.cell = 0
    · rw [if_pos hcell, if_pos hcell]
      rfl
    · rw [if_neg hcell, if_neg hcell]
      cases hlocate : m.locate stride with
      | ok cell => exact ih (m := { m with ptr := cell }) short (hasCell_of_locate hlocate)
      | error e => rfl

def transfer (d : Int) (m : Machine) : Option (Outcome RunError Machine Unit) := do
  let v ← load m.tape m.ptr
  if v = 0 then return .done () m
  else
    match ← locate m d with
    | .ok cell =>
      let w ← load m.tape cell
      let given ← store m.tape cell (w + v)
      let cleared ← store given m.ptr 0
      return .done () { m with tape := cleared }
    | .error e => return .failed e m

theorem transfer_eq (short : m.tape.size ≤ offsetMax) (on : m.HasCell) (d : Int) :
    transfer d m = some (m.transfer d) := by
  unfold transfer Machine.transfer
  rw [load_eq on, locate_eq short]
  show (if m.cell = 0 then _ else _) = some (if m.cell = 0 then _ else _)
  by_cases hcell : m.cell = 0
  · rw [if_pos hcell, if_pos hcell]
    rfl
  · rw [if_neg hcell, if_neg hcell]
    cases hlocate : m.locate d with
    | ok cell =>
      have hthere := lt_size_of_locate hlocate
      have hhere : m.ptr < (m.tape.set cell (m.tape.get cell + m.cell)).size := by
        rw [Tape.size_set]
        exact on
      show (do
        let w ← load m.tape cell
        let given ← store m.tape cell (w + m.cell)
        let cleared ← store given m.ptr 0
        return Outcome.done () { m with tape := cleared }) = _
      rw [load_eq hthere]
      dsimp only [Option.bind_eq_bind, Option.bind_some]
      rw [store_eq hthere]
      dsimp only [Option.bind_eq_bind, Option.bind_some]
      rw [store_eq hhere]
      rfl
    | error e => rfl

/-! ## The current cell -/

/-- Change the current cell. -/
def update (change : UInt8 → UInt8) (m : Machine) : Option (Outcome RunError Machine Unit) := do
  let v ← load m.tape m.ptr
  let changed ← store m.tape m.ptr (change v)
  return .done () { m with tape := changed }

theorem update_eq (on : m.HasCell) (change : UInt8 → UInt8) :
    update change m = some (.done () (m.setCell (change m.cell))) := by
  unfold update
  rw [load_eq on]
  dsimp only [Option.bind_eq_bind, Option.bind_some]
  rw [store_eq on]
  rfl

def readCell : Nat → Machine → Option (Outcome RunError Machine Unit)
  | 0, m => some (.done () m)
  | n + 1, m =>
    match m.console.getByte with
    | .done (some b) c => do
      let changed ← store m.tape m.ptr b
      readCell n { m with tape := changed, console := c }
    | .done none c => some (.done () { m with console := c })
    | .failed f c => some (.failed (.io f) { m with console := c })
    | .unfinished => some .unfinished

theorem readCell_eq (on : m.HasCell) (n : Nat) : readCell n m = some (m.readCell n) := by
  induction n generalizing m with
  | zero => rfl
  | succ n ih =>
    rw [readCell, Machine.readCell]
    cases m.console.getByte with
    | done answer c =>
      cases answer with
      | some b =>
        dsimp only
        rw [store_eq on]
        exact ih (m := { m with tape := m.tape.set m.ptr b, console := c }) (on.setCell b)
      | none => rfl
    | failed f c => rfl
    | unfinished => rfl

def writeCell : Nat → Machine → Option (Outcome RunError Machine Unit)
  | 0, m => some (.done () m)
  | n + 1, m => do
    let v ← load m.tape m.ptr
    match m.console.putByte v with
    | .done _ c => writeCell n { m with console := c }
    | .failed f c => return .failed (.io f) { m with console := c }
    | .unfinished => return .unfinished

theorem writeCell_eq (on : m.HasCell) (n : Nat) : writeCell n m = some (m.writeCell n) := by
  induction n generalizing m with
  | zero => rfl
  | succ n ih =>
    rw [writeCell, Machine.writeCell, load_eq on]
    -- what was loaded is the current cell
    show (match m.console.putByte m.cell with
      | .done _ c => writeCell n { m with console := c }
      | .failed f c => some (.failed (.io f) { m with console := c })
      | .unfinished => some .unfinished) = _
    cases m.console.putByte m.cell with
    | done answer c => exact ih (m := { m with console := c }) on
    | failed f c => rfl
    | unfinished => rfl

/-! ## Operations -/

/-- Only the largest negative offset has no opposite, and no run length comes to
it. -/
def act (m : Machine) (n : Nat) : Action → Option (Outcome RunError Machine Unit)
  | .right => do
    let d ← offset (reach n)
    move d m
  | .left => do
    let d ← offset (reach n)
    let back ← offset (-d)
    move back m
  | .inc => update (· + UInt8.ofNat n) m
  | .dec => update (· - UInt8.ofNat n) m
  | .write => writeCell n m
  | .read => readCell n m

theorem act_eq (short : m.tape.size ≤ offsetMax) (on : m.HasCell) (n : Nat) (a : Action) :
    act m n a = some (m.act n a) := by
  cases a with
  | right =>
    rw [act, offset_reach]
    exact move_eq short (reach n)
  | left =>
    have hle := reach_le n
    have hge := reach_nonneg n
    have hback : offsetMin ≤ -reach n ∧ -reach n ≤ offsetMax := by
      unfold offsetMin
      unfold offsetMax at hle ⊢
      omega
    rw [act, offset_reach]
    dsimp only [Option.bind_eq_bind, Option.bind_some]
    rw [offset_eq hback]
    exact move_eq short (-reach n)
  | inc => exact update_eq on _
  | dec => exact update_eq on _
  | write => exact writeCell_eq on n
  | read => exact readCell_eq on n

def exec (m : Machine) : Op → Option (Outcome RunError Machine Unit)
  | .run a n => do
    let times ← counter n
    act m times a
  | .jumpZero target => do
    let v ← load m.tape m.ptr
    let dest ← counter target
    return .done () (if v = 0 then m.jump dest else m)
  | .jumpNonzero target => do
    let v ← load m.tape m.ptr
    let dest ← counter target
    return .done () (if v = 0 then m else m.jump dest)
  | .clear => update (fun _ => 0) m
  | .scan stride => do
    let d ← offset stride
    scanFor d m.tape.size m
  | .transfer distance => do
    let d ← offset distance
    transfer d m
  | .trap => some (.failed (.trap m.pc) m)

theorem exec_eq (short : m.tape.size ≤ offsetMax) (on : m.HasCell) {op : Op} (fits : op.Fits) :
    exec m op = some (m.exec op) := by
  cases op with
  | run a n =>
    rw [exec, counter_eq fits]
    exact act_eq short on n a
  | jumpZero target =>
    rw [exec, load_eq on, counter_eq fits]
    rfl
  | jumpNonzero target =>
    rw [exec, load_eq on, counter_eq fits]
    rfl
  | clear => exact update_eq on _
  | scan stride =>
    rw [exec, offset_eq fits]
    exact scanFor_eq short on stride m.tape.size
  | transfer distance =>
    rw [exec, offset_eq fits]
    exact transfer_eq short on distance
  | trap => rfl

/-! ## Steps and runs -/

def tick (m : Machine) : Option Machine := do
  let pc ← counter (bump m.pc)
  let steps ← counter (bump m.steps)
  return { m with pc := pc, steps := steps }

theorem tick_eq (m : Machine) : tick m = some m.tick := by
  unfold tick
  rw [counter_eq (bump_le m.pc), counter_eq (bump_le m.steps)]
  rfl

def step (code : Code) (m : Machine) : Option (Outcome RunError Machine Bool) :=
  match code[m.pc]? with
  | none => some (.done false m)
  | some op =>
    if m.ptr < m.tape.size then
      andThen (exec m op) fun _ u => (tick u).map (.done true)
    else
      (offset (reach m.ptr)).map fun cell => .failed (.offTape m.pc cell) m

theorem step_eq (fits : ∀ op ∈ code, op.Fits) (short : m.tape.size ≤ offsetMax) :
    step code m = some (m.step code) := by
  unfold step Machine.step
  cases hop : code[m.pc]? with
  | none => rfl
  | some op =>
    dsimp only
    by_cases on : m.ptr < m.tape.size
    · rw [if_pos on, if_pos on, exec_eq short on (fits op (Array.mem_of_getElem? hop))]
      apply andThen_eq
      intro _ u _
      rw [tick_eq]
      rfl
    · rw [if_neg on, if_neg on, offset_reach]
      rfl

def advance (code : Code) : Nat → Machine → Option (Outcome RunError Machine Unit)
  | 0, m => some (.done () m)
  | n + 1, m =>
    andThen (step code m) fun more u => if more then advance code n u else some (.done () u)

def runAtMost (code : Code) (limit : Nat) (m : Machine) :
    Option (Outcome RunError Machine Bool) :=
  andThen (advance code limit m) fun _ u =>
    some (u.flush.bind fun _ v => .done (v.atEnd code) v)

def run (code : Code) (fuel : Nat) (m : Machine) : Option (Outcome RunError Machine Unit) :=
  andThen (advance code fuel m) fun _ u => some (if u.atEnd code then u.flush else .unfinished)

def perform (code : Code) (m : Machine) : Command → Option (Outcome RunError Machine Bool)
  | .step => step code m
  | .runAtMost limit => runAtMost code limit m
  | .run fuel => andThen (run code fuel m) fun _ u => some (.done true u)

def performAll (code : Code) (m : Machine) :
    List Command → Option (List (Outcome RunError Machine Bool))
  | [] => some []
  | cmd :: cmds => do
    let o ← perform code m cmd
    match o.state? with
    | some u =>
      let rest ← performAll code u cmds
      return o :: rest
    | none => return [o]

section Runs

variable {size : Nat} (fits : ∀ op ∈ code, op.Fits) (short : size ≤ offsetMax)
include fits short

theorem advance_eq (placed : m.Placed size) (n : Nat) :
    advance code n m = some (m.advance code n) := by
  induction n generalizing m with
  | zero => rfl
  | succ n ih =>
    rw [advance, step_eq fits (placed.size_eq.trans_le short), Machine.advance]
    cases hstep : m.step code with
    | done more u =>
      cases more with
      | true => exact ih ((Placed.kept code size).step m u placed (by rw [hstep]; rfl))
      | false => rfl
    | failed e u => rfl
    | unfinished => rfl

theorem perform_eq (placed : m.Placed size) (cmd : Command) :
    perform code m cmd = some (cmd.perform code m) := by
  cases cmd with
  | step => exact step_eq fits (placed.size_eq.trans_le short)
  | runAtMost limit =>
    rw [perform, runAtMost, advance_eq fits short placed]
    apply andThen_eq
    intro _ u _
    rfl
  | run fuel =>
    have hrun : run code fuel m = some (m.run code fuel) := by
      rw [run, advance_eq fits short placed]
      apply andThen_eq
      intro _ u _
      rfl
    rw [perform, hrun]
    apply andThen_eq
    intro _ u _
    rfl

/-- A session of the guarded machine is the session of the plain one. -/
theorem performAll_eq (placed : m.Placed size) (cmds : List Command) :
    performAll code m cmds = some (m.performAll code cmds) := by
  induction cmds generalizing m with
  | nil => rfl
  | cons cmd cmds ih =>
    rw [performAll, perform_eq fits short placed, Machine.performAll]
    dsimp only [Option.bind_eq_bind, Option.bind_some]
    cases hstate : (cmd.perform code m).state? with
    | none => rfl
    | some u =>
      dsimp only
      rw [ih ((Placed.kept code size).perform placed hstate)]
      rfl

end Runs

end Guarded

/-- **Tape safety.** Take any array whose arguments fit, a tape of at most
`offsetMax` cells, any console and any commands. Then every command of the
session uses cells of the tape only and comes to numbers that fit: the guarded
machine has an outcome for each of them, the one of the plain machine. On a tape
without cells this says that no cell is used. And wherever commands lead, the
tape has its old length and the pointer is on it. -/
theorem guarded_session {code : Code} (fits : ∀ op ∈ code, op.Fits) {size : Nat}
    (short : size ≤ offsetMax) (c : Console) :
    (∀ cmds : List Command, Guarded.performAll code (Machine.start size c) cmds =
      some ((Machine.start size c).performAll code cmds)) ∧
    ∀ (cmds : List Command) (m : Machine), (Machine.start size c).Leads code cmds m →
      m.tape.size = size ∧ (1 ≤ size → m.ptr < m.tape.size) ∧ (size = 0 → m.ptr = 0) := by
  have placed := Machine.Placed.start size c
  refine ⟨?_, ?_⟩
  · intro cmds
    exact Guarded.performAll_eq fits short placed cmds
  · intro cmds m reached
    have hm : m.Placed size := (Machine.Placed.kept code size).leads placed reached
    refine ⟨hm.size_eq, ?_, ?_⟩
    · intro hsize
      exact hm.hasCell hsize
    · intro hzero
      rcases hm.on_tape with on | ⟨-, hptr⟩
      · -- a tape without cells has no current one
        have hlt : m.ptr < m.tape.size := on
        rw [hm.size_eq] at hlt
        omega
      · exact hptr

/-- The offset that has no opposite, and a target past every array. -/
theorem guarded_session_extremes :
    (∀ op ∈ (#[.run .inc 1, .jumpZero 18446744073709551615,
      .transfer (-9223372036854775808)] : Code), op.Fits) ∧
    3 ≤ offsetMax ∧
    Guarded.performAll
      #[.run .inc 1, .jumpZero 18446744073709551615, .transfer (-9223372036854775808)]
      (Machine.start 3 {}) [.run 5, .step] =
      some [
        .failed (.offTape 2 (-9223372036854775808))
          { tape := ⟨#[1, 0, 0]⟩, pc := 2, steps := 2 },
        .failed (.offTape 2 (-9223372036854775808))
          { tape := ⟨#[1, 0, 0]⟩, pc := 2, steps := 2 }] := by
  have fits : ∀ op ∈ (#[.run .inc 1, .jumpZero 18446744073709551615,
      .transfer (-9223372036854775808)] : Code), op.Fits := by
    simp [Op.Fits, counterMax, offsetMin, offsetMax]
  have short : 3 ≤ offsetMax := by decide
  exact ⟨fits, short, (guarded_session fits short {}).1 [.run 5, .step]⟩

end Brainfuck
