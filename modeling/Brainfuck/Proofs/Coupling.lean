import Brainfuck.Proofs.Commands

/-!
# Two consoles, one run

Two machines that differ in their consoles only do the same things as long as
their consoles answer alike. What it takes is a relation between consoles that
survives each call and gives both calls the same answer (`Console.Coupling`).
Then machines that are related in this way and equal otherwise
(`Machine.Coupled`) stay so:

* **one operation** — `Coupled.exec`, where only reading and writing need the
  coupling (`Coupled.exec_quiet`);
* **one step, many steps** — `Coupled.step`, `Coupled.advance`;
* **commands** — `Coupled.perform`.

`Outcome.Alike` is the form in which all of this is said: the same answer or the
same error, and related states behind it.
-/

namespace Brainfuck

namespace Outcome

variable {ε ε' σ τ σ' τ' α β : Type} {R : σ → τ → Prop} {S : σ' → τ' → Prop}

/-- The two calls came to the same answer, or the same error, and left related
states behind; or neither of them has returned. -/
inductive Alike (R : σ → τ → Prop) : Outcome ε σ α → Outcome ε τ α → Prop
  | done (a : α) {s : σ} {t : τ} : R s t → Alike R (.done a s) (.done a t)
  | failed (e : ε) {s : σ} {t : τ} : R s t → Alike R (.failed e s) (.failed e t)
  | unfinished : Alike R .unfinished .unfinished

namespace Alike

theorem bind {o : Outcome ε σ α} {o' : Outcome ε τ α} {next : α → σ → Outcome ε σ β}
    {next' : α → τ → Outcome ε τ β} (h : Alike R o o')
    (hnext : ∀ a s t, R s t → Alike R (next a s) (next' a t)) :
    Alike R (o.bind next) (o'.bind next') := by
  cases h with
  | done a hst => exact hnext a _ _ hst
  | failed e hst => exact .failed e hst
  | unfinished => exact .unfinished

theorem within {o : Outcome ε σ α} {o' : Outcome ε τ α} (h : Alike R o o') (error : ε → ε')
    {put : σ → σ'} {put' : τ → τ'} (hput : ∀ s t, R s t → S (put s) (put' t)) :
    Alike S (o.within error put) (o'.within error put') := by
  cases h with
  | done a hst => exact .done a (hput _ _ hst)
  | failed e hst => exact .failed (error e) (hput _ _ hst)
  | unfinished => exact .unfinished

theorem mono {R' : σ → τ → Prop} {o : Outcome ε σ α} {o' : Outcome ε τ α} (h : Alike R o o')
    (himp : ∀ s t, R s t → R' s t) : Alike R' o o' := by
  cases h with
  | done a hst => exact .done a (himp _ _ hst)
  | failed e hst => exact .failed e (himp _ _ hst)
  | unfinished => exact .unfinished

theorem symm {S : τ → σ → Prop} {o : Outcome ε σ α} {o' : Outcome ε τ α} (h : Alike R o o')
    (himp : ∀ s t, R s t → S t s) : Alike S o' o := by
  cases h with
  | done a hst => exact .done a (himp _ _ hst)
  | failed e hst => exact .failed e (himp _ _ hst)
  | unfinished => exact .unfinished

theorem trans {ρ : Type} {S : τ → ρ → Prop} {T : σ → ρ → Prop} {o : Outcome ε σ α}
    {o' : Outcome ε τ α} {o'' : Outcome ε ρ α} (h : Alike R o o') (h' : Alike S o' o'')
    (himp : ∀ s t r, R s t → S t r → T s r) : Alike T o o'' := by
  cases h with
  | done a hst =>
    cases h' with
    | done _ htr => exact .done a (himp _ _ _ hst htr)
  | failed e hst =>
    cases h' with
    | failed _ htr => exact .failed e (himp _ _ _ hst htr)
  | unfinished =>
    cases h'
    exact .unfinished

theorem returned_eq {o : Outcome ε σ α} {o' : Outcome ε τ α} (h : Alike R o o') :
    o.returned = o'.returned := by
  cases h <;> rfl

/-- What is done after a call may not be seen. -/
theorem bind_self {R : σ → σ → Prop} {o : Outcome ε σ α} {next : α → σ → Outcome ε σ α}
    (refl : ∀ s, R s s) (unseen : ∀ a s, o = .done a s → ∃ t, next a s = .done a t ∧ R s t) :
    Alike R o (o.bind next) := by
  cases o with
  | done a s =>
    obtain ⟨t, hnext, hst⟩ := unseen a s rfl
    rw [bind_done, hnext]
    exact .done a hst
  | failed e s => exact .failed e (refl s)
  | unfinished => exact .unfinished

theorem exists_of_done {o : Outcome ε τ α} {a : α} {s : σ} (h : Alike R (.done a s) o) :
    ∃ t, o = .done a t ∧ R s t := by
  cases h with
  | done _ hst => exact ⟨_, rfl, hst⟩

theorem exists_of_state? {o : Outcome ε σ α} {o' : Outcome ε τ α} (h : Alike R o o') {s : σ}
    (hs : o.state? = some s) : ∃ t, o'.state? = some t ∧ R s t := by
  cases h with
  | done a hst =>
    cases hs
    exact ⟨_, rfl, hst⟩
  | failed e hst =>
    cases hs
    exact ⟨_, rfl, hst⟩
  | unfinished => cases hs

/-- A call that is like itself leaves a state behind that is related to itself. -/
theorem of_state? {R : σ → σ → Prop} {o : Outcome ε σ α} {s : σ} (h : Alike R o o)
    (hs : o.state? = some s) : R s s := by
  obtain ⟨t, ht, hst⟩ := h.exists_of_state? hs
  rw [hs] at ht
  cases ht
  exact hst

end Alike

end Outcome

/-- Consoles that have the same reader are answered alike, if the relation is kept by
each single read. -/
theorem Console.alike_ask {R : Console → Console → Prop}
    (reader : ∀ c d, R c d → c.reader = d.reader) (heard : ∀ c d, R c d → R c.heard d.heard)
    {c d : Console} (h : R c d) : Outcome.Alike R c.ask d.ask := by
  -- by the recursion of `ask`; the other console gets the same reply
  fun_induction ask c generalizing d with
  | case1 c hread =>
    rw [ask_unfold d, ← reader c d h, hread]
    exact .done none (heard c d h)
  | case2 c b bs hread =>
    rw [ask_unfold d, ← reader c d h, hread]
    exact .done (some b) (heard c d h)
  | case3 c f hread htransient ih =>
    rw [ask_unfold d, ← reader c d h, hread]
    dsimp only
    rw [if_pos htransient]
    exact ih (heard c d h)
  | case4 c f hread hlasting =>
    rw [ask_unfold d, ← reader c d h, hread]
    dsimp only
    rw [if_neg hlasting]
    exact .failed f (heard c d h)

/-- The relation is kept by every call on the two consoles, and the calls come to
the same. -/
structure Console.Coupling (R : Console → Console → Prop) : Prop where
  flush : ∀ c d, R c d → Outcome.Alike R c.flush d.flush
  ask : ∀ c d, R c d → Outcome.Alike R c.ask d.ask
  putByte : ∀ b c d, R c d → Outcome.Alike R (c.putByte b) (d.putByte b)

theorem Console.Coupling.getByte {R : Console → Console → Prop} (coupling : Coupling R)
    {c d : Console} (h : R c d) : Outcome.Alike R c.getByte d.getByte := by
  apply (coupling.flush c d h).bind
  intro _ c' d' h'
  exact coupling.ask c' d' h'

namespace Machine

open Outcome

variable {R : Console → Console → Prop} {code : Code} {m u m' : Machine}

/-- The two machines have related consoles and are equal otherwise. -/
structure Coupled (R : Console → Console → Prop) (m u : Machine) : Prop where
  tape : m.tape = u.tape
  ptr : m.ptr = u.ptr
  pc : m.pc = u.pc
  steps : m.steps = u.steps
  console : R m.console u.console

namespace Coupled

theorem refl (h : R m.console m.console) : Coupled R m m := ⟨rfl, rfl, rfl, rfl, h⟩

theorem withConsole (coupled : Coupled R m u) {c d : Console} (h : R c d) :
    Coupled R { m with console := c } { u with console := d } :=
  ⟨coupled.tape, coupled.ptr, coupled.pc, coupled.steps, h⟩

theorem withPtr (coupled : Coupled R m u) (cell : Nat) :
    Coupled R { m with ptr := cell } { u with ptr := cell } :=
  ⟨coupled.tape, rfl, coupled.pc, coupled.steps, coupled.console⟩

theorem withTape (coupled : Coupled R m u) {s t : Tape} (h : s = t) :
    Coupled R { m with tape := s } { u with tape := t } :=
  ⟨h, coupled.ptr, coupled.pc, coupled.steps, coupled.console⟩

theorem cell (coupled : Coupled R m u) : m.cell = u.cell := by
  rw [Machine.cell, Machine.cell, coupled.tape, coupled.ptr]

theorem setCell (coupled : Coupled R m u) (v : UInt8) :
    Coupled R (m.setCell v) (u.setCell v) := by
  apply coupled.withTape
  rw [coupled.tape, coupled.ptr]

theorem jump (coupled : Coupled R m u) (target : Nat) :
    Coupled R (m.jump target) (u.jump target) :=
  ⟨coupled.tape, coupled.ptr, rfl, coupled.steps, coupled.console⟩

theorem tick (coupled : Coupled R m u) : Coupled R m.tick u.tick := by
  refine ⟨coupled.tape, coupled.ptr, ?_, ?_, coupled.console⟩
  · show bump m.pc = bump u.pc
    rw [coupled.pc]
  · show bump m.steps = bump u.steps
    rw [coupled.steps]

theorem atEnd (coupled : Coupled R m u) (code : Code) : m.atEnd code = u.atEnd code := by
  rw [Machine.atEnd, Machine.atEnd, coupled.pc]

theorem locate (coupled : Coupled R m u) (offset : Int) : m.locate offset = u.locate offset := by
  rw [Machine.locate, Machine.locate, coupled.tape, coupled.ptr, coupled.pc]

/-! ## One operation -/

theorem move (coupled : Coupled R m u) (offset : Int) :
    Alike (Coupled R) (m.move offset) (u.move offset) := by
  rw [Machine.move, Machine.move, coupled.locate]
  cases u.locate offset with
  | ok cell => exact .done () (coupled.withPtr cell)
  | error e => exact .failed e coupled

theorem scanFor (coupled : Coupled R m u) (stride : Int) (fuel : Nat) :
    Alike (Coupled R) (m.scanFor stride fuel) (u.scanFor stride fuel) := by
  induction fuel generalizing m u with
  | zero => exact .unfinished
  | succ fuel ih =>
    rw [Machine.scanFor, Machine.scanFor, coupled.cell, coupled.locate]
    split
    · exact .done () coupled
    · cases u.locate stride with
      | ok cell => exact ih (coupled.withPtr cell)
      | error e => exact .failed e coupled

theorem scan (coupled : Coupled R m u) (stride : Int) :
    Alike (Coupled R) (m.scan stride) (u.scan stride) := by
  rw [Machine.scan, Machine.scan, coupled.tape]
  exact coupled.scanFor stride _

theorem transfer (coupled : Coupled R m u) (offset : Int) :
    Alike (Coupled R) (m.transfer offset) (u.transfer offset) := by
  unfold Machine.transfer
  rw [coupled.cell, coupled.locate]
  dsimp only
  split
  · exact .done () coupled
  · cases u.locate offset with
    | ok cell =>
      refine .done () (coupled.withTape ?_)
      rw [coupled.tape, coupled.ptr]
    | error e => exact .failed e coupled

theorem readCell (coupled : Coupled R m u)
    (getByte : ∀ c d, R c d → Alike R c.getByte d.getByte) (n : Nat) :
    Alike (Coupled R) (m.readCell n) (u.readCell n) := by
  induction n generalizing m u with
  | zero => exact .done () coupled
  | succ n ih =>
    rw [Machine.readCell, Machine.readCell]
    have hget := getByte m.console u.console coupled.console
    generalize m.console.getByte = o, u.console.getByte = o' at hget
    cases hget with
    | done answer hcd =>
      cases answer with
      | some b => exact ih ((coupled.setCell b).withConsole hcd)
      | none => exact .done () (coupled.withConsole hcd)
    | failed f hcd => exact .failed (RunError.io f) (coupled.withConsole hcd)
    | unfinished => exact .unfinished

/-- An operation that neither reads nor writes does not look at the console. -/
theorem exec_quiet (coupled : Coupled R m u) {op : Op} (hread : ∀ n, op ≠ .run .read n)
    (hwrite : ∀ n, op ≠ .run .write n) : Alike (Coupled R) (m.exec op) (u.exec op) := by
  cases op with
  | run a n =>
    cases a with
    | right => exact coupled.move (reach n)
    | left => exact coupled.move (-reach n)
    | inc =>
      rw [Machine.exec, Machine.exec, Machine.act, Machine.act, coupled.cell]
      exact .done () (coupled.setCell _)
    | dec =>
      rw [Machine.exec, Machine.exec, Machine.act, Machine.act, coupled.cell]
      exact .done () (coupled.setCell _)
    | write => exact absurd rfl (hwrite n)
    | read => exact absurd rfl (hread n)
  | jumpZero target =>
    rw [Machine.exec, Machine.exec, coupled.cell]
    split
    · exact .done () (coupled.jump target)
    · exact .done () coupled
  | jumpNonzero target =>
    rw [Machine.exec, Machine.exec, coupled.cell]
    split
    · exact .done () coupled
    · exact .done () (coupled.jump target)
  | clear => exact .done () (coupled.setCell 0)
  | scan stride => exact coupled.scan stride
  | transfer offset => exact coupled.transfer offset
  | trap =>
    rw [Machine.exec, Machine.exec, coupled.pc]
    exact .failed _ coupled

variable (coupling : Console.Coupling R)
include coupling

theorem writeCell (coupled : Coupled R m u) (n : Nat) :
    Alike (Coupled R) (m.writeCell n) (u.writeCell n) := by
  induction n generalizing m u with
  | zero => exact .done () coupled
  | succ n ih =>
    rw [Machine.writeCell, Machine.writeCell, coupled.cell]
    have hput := coupling.putByte u.cell m.console u.console coupled.console
    generalize m.console.putByte u.cell = o, u.console.putByte u.cell = o' at hput
    cases hput with
    | done answer hcd => exact ih (coupled.withConsole hcd)
    | failed f hcd => exact .failed (RunError.io f) (coupled.withConsole hcd)
    | unfinished => exact .unfinished

theorem exec (coupled : Coupled R m u) (op : Op) :
    Alike (Coupled R) (m.exec op) (u.exec op) := by
  by_cases hread : ∃ n, op = .run .read n
  · obtain ⟨n, rfl⟩ := hread
    exact coupled.readCell (fun _ _ => coupling.getByte) n
  · by_cases hwrite : ∃ n, op = .run .write n
    · obtain ⟨n, rfl⟩ := hwrite
      exact coupled.writeCell coupling n
    · exact coupled.exec_quiet (not_exists.mp hread) (not_exists.mp hwrite)

/-! ## Steps, runs and commands -/

theorem step (coupled : Coupled R m u) (code : Code) :
    Alike (Coupled R) (m.step code) (u.step code) := by
  rw [Machine.step, Machine.step, coupled.pc, coupled.ptr, coupled.tape]
  cases code[u.pc]? with
  | none => exact .done false coupled
  | some op =>
    dsimp only
    split
    · apply (coupled.exec coupling op).bind
      intro _ v w hvw
      exact .done true hvw.tick
    · exact .failed _ coupled

theorem advance (coupled : Coupled R m u) (code : Code) (n : Nat) :
    Alike (Coupled R) (m.advance code n) (u.advance code n) := by
  induction n generalizing m u with
  | zero => exact .done () coupled
  | succ n ih =>
    rw [Machine.advance, Machine.advance]
    have hstep := coupled.step coupling code
    generalize m.step code = o, u.step code = o' at hstep
    cases hstep with
    | done more hvw =>
      cases more with
      | true => exact ih hvw
      | false => exact .done () hvw
    | failed e hvw => exact .failed e hvw
    | unfinished => exact .unfinished

theorem flush (coupled : Coupled R m u) : Alike (Coupled R) m.flush u.flush := by
  apply (coupling.flush m.console u.console coupled.console).within
  intro c d hcd
  exact coupled.withConsole hcd

theorem runAtMost (coupled : Coupled R m u) (code : Code) (limit : Nat) :
    Alike (Coupled R) (m.runAtMost code limit) (u.runAtMost code limit) := by
  apply (coupled.advance coupling code limit).bind
  intro _ v w hvw
  apply (hvw.flush coupling).bind
  intro _ v' w' hvw'
  rw [hvw'.atEnd code]
  exact .done _ hvw'

theorem run (coupled : Coupled R m u) (code : Code) (fuel : Nat) :
    Alike (Coupled R) (m.run code fuel) (u.run code fuel) := by
  apply (coupled.advance coupling code fuel).bind
  intro _ v w hvw
  rw [hvw.atEnd code]
  split
  · exact hvw.flush coupling
  · exact .unfinished

theorem perform (coupled : Coupled R m u) (code : Code) (cmd : Command) :
    Alike (Coupled R) (cmd.perform code m) (cmd.perform code u) := by
  cases cmd with
  | step => exact coupled.step coupling code
  | runAtMost limit => exact coupled.runAtMost coupling code limit
  | run fuel =>
    apply (coupled.run coupling code fuel).bind
    intro _ v w hvw
    exact .done true hvw

/-- What a console keeps by being coupled with itself, a session keeps. -/
theorem leads_self {cmds : List Command} (h : R m.console m.console)
    (leads : Leads code m cmds m') : R m'.console m'.console := by
  induction leads with
  | nil => exact h
  | @cons m u m' cmd cmds hcmd _ ih =>
    have hself := (Coupled.refl h).perform coupling code cmd
    exact ih (hself.of_state? hcmd).console

end Coupled

end Machine

end Brainfuck
