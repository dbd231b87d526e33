import Brainfuck.Op.Basic

/-!
# The log

Compiling and running leave a trail of events. An event has a level; a reader
of the log picks the level down to which it wants to see events, from warnings
(there are none) to traces (that is everything).
-/

namespace Brainfuck

/-- How detailed a log is, from terse to verbose. -/
inductive Level where
  | warn
  | info
  | debug
  | trace
  deriving DecidableEq, Repr

namespace Level

/-- Levels in order of detail. -/
def detail : Level → Nat
  | .warn => 0
  | .info => 1
  | .debug => 2
  | .trace => 3

/-- The name of a level in the log. -/
def name : Level → String
  | .warn => "WARN"
  | .info => "INFO"
  | .debug => "DEBUG"
  | .trace => "TRACE"

end Level

/-- Something worth logging. -/
inductive Event where
  /-- The loop that ends at byte `pos` became the operation `op` at index `slot`. -/
  | fused (pos slot : Nat) (op : Op)
  /-- A program of so many bytes was accepted as an array of so many operations. -/
  | compiled (bytes ops : Nat)
  /-- A run reached the end of the program. -/
  | ended (steps : Nat)
  /-- A limited run stopped, at the end of the program or at its limit. -/
  | paused (steps : Nat) (halted : Bool)
  deriving DecidableEq, Repr

namespace Event

/-- The level at which an event is logged. -/
def level : Event → Level
  | .fused .. => .debug
  | .compiled .. => .info
  | .ended .. | .paused .. => .trace

/-- What happened, in words. -/
def message : Event → String
  | .fused pos slot op => s!"loop rewritten pc={pos} open_offset={slot} op={op.render}"
  | .compiled bytes ops => s!"program translated instructions={bytes} ops={ops}"
  | .ended steps => s!"program halted steps={steps}"
  | .paused steps halted => s!"step limit run finished steps={steps} halted={halted}"

/-- The line of an event in the log. -/
def render (e : Event) : String := e.level.name ++ " " ++ e.message

theorem render_fused (pos slot : Nat) (op : Op) : (fused pos slot op).render =
    s!"DEBUG loop rewritten pc={pos} open_offset={slot} op={op.render}" := by
  have hfront : "DEBUG" ++ " " ++ "loop rewritten pc=" = "DEBUG loop rewritten pc=" := by simp
  unfold render message level Level.name
  dsimp only [toString]
  rw [← hfront]
  simp only [String.append_assoc]

theorem render_compiled (bytes ops : Nat) : (compiled bytes ops).render =
    s!"INFO program translated instructions={bytes} ops={ops}" := by
  have hfront : "INFO" ++ " " ++ "program translated instructions=" =
      "INFO program translated instructions=" := by simp
  unfold render message level Level.name
  dsimp only [toString]
  rw [← hfront]
  simp only [String.append_assoc]

/-- Whether a log of this level shows the event. -/
def visibleAt (e : Event) (level : Level) : Bool := e.level.detail ≤ level.detail

end Event

/-- The lines of a log at a level, in the order of the events. -/
def Level.lines (level : Level) (events : List Event) : List String :=
  (events.filter (·.visibleAt level)).map Event.render

end Brainfuck
