import Brainfuck.Machine.Run

/-!
# Sessions

A session is a machine that is driven by commands. A command that fails does
not end the session: the machine goes on from where the failure left it.
-/

namespace Brainfuck

/-- What a machine can be told to do. -/
inductive Command where
  /-- Execute one operation. -/
  | step
  /-- Execute up to `limit` operations. -/
  | runAtMost (limit : Nat)
  /-- Run to the end of the program, which must be within `fuel` operations. -/
  | run (fuel : Nat)
  deriving DecidableEq, Repr

namespace Command

/-- Carry out a command. The answer of a full run is that the program is at its
end. -/
def perform (code : Code) (m : Machine) : Command → Outcome RunError Machine Bool
  | .step => m.step code
  | .runAtMost limit => m.runAtMost code limit
  | .run fuel => (m.run code fuel).bind fun _ m => .done true m

/-- What the log says about a command that succeeded and left the machine `m`. -/
def event? (code : Code) (m : Machine) : Command → Option Event
  | .step => none
  | .runAtMost _ => some (.paused m.steps (m.atEnd code))
  | .run _ => some (.ended m.steps)

/-- The events of a command with this outcome. -/
def events (code : Code) (cmd : Command) : Outcome RunError Machine Bool → List Event
  | .done _ m => (cmd.event? code m).toList
  | _ => []

end Command

/-- Carry out commands one after the other, each on the machine that the one
before left behind, whether it failed or not. There is nothing to go on with
after a command that does not return. -/
def Machine.performAll (code : Code) (m : Machine) :
    List Command → List (Outcome RunError Machine Bool)
  | [] => []
  | cmd :: cmds =>
    let o := cmd.perform code m
    match o.state? with
    | some m' => o :: performAll code m' cmds
    | none => [o]

end Brainfuck
