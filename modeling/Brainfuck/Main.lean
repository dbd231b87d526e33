import Brainfuck.Cli.Report

/-!
# The command

The outermost layer: real files, real streams, and a loop that may run
forever. The machine itself is the one of the library. Before an operation
that reads, the loop fetches input for it; after every operation it passes on
what was written.
-/

namespace Brainfuck.Cli

/-- What a failed attempt to read a file amounts to. The number of the failure
comes with either sign. -/
def FileError.ofIO : IO.Error → FileError
  | .noFileOrDirectory .. => .missing
  | .noSuchThing .. => .missing
  | .inappropriateType _ code details =>
    if code = 20 ∨ code = -20 then .throughFile
    else if code = 21 ∨ code = -21 then .isFolder
    else .other details
  | e => .other (toString e)

/-- Fetch input until `n` bytes are in store or the input is at its end. -/
partial def fetch (stdin : IO.FS.Stream) (n : Nat) (r : Reader) : IO Reader := do
  if n ≤ r.atoms.length then return r
  let chunk ← stdin.read 4096
  if chunk.isEmpty then return r
  fetch stdin n ⟨r.feeds ++ [.data chunk.data.toList]⟩

/-- Pass on what was written, and forget about it. -/
def emit (stdout : IO.FS.Stream) (m : Machine) : IO Machine := do
  if m.console.calls.isEmpty then return m
  stdout.write ⟨m.console.output.toArray⟩
  return { m with console := { m.console with calls := [] } }

/-- Wait for something that never comes. -/
partial def idle {α : Type} : IO α := do
  IO.sleep 1000
  idle

/-- Run to the end of the program. -/
partial def live (stdin stdout : IO.FS.Stream) (code : Code) (m : Machine) :
    IO (Except RunError Machine) := do
  let m ← match code[m.pc]? with
    | some (.run .read n) => do
      stdout.flush
      let reader ← fetch stdin n m.console.reader
      pure { m with console := { m.console with reader := reader } }
    | _ => pure m
  match m.step code with
  | .done true m => live stdin stdout code (← emit stdout m)
  | .done false m => stdout.flush; return .ok m
  | .failed e m => let _ ← emit stdout m; stdout.flush; return .error e
  | .unfinished => idle

/-- Print lines on the standard error output. -/
def complain (lines : List String) : IO Unit := lines.forM IO.eprintln

/-- Run the program in a file, or list its operations. -/
def serve (path : String) (list : Bool) (level : Level) : IO UInt32 := do
  let source ← try
      pure (Except.ok (← IO.FS.readBinFile path))
    catch e => pure (Except.error (FileError.ofIO e))
  match source with
  | .error e => complain [unreadable path e]; return 1
  | .ok bytes =>
    let compilation := (Program.ofSource bytes.data.toList).compile
    complain (level.lines compilation.events)
    match compilation.result with
    | .error e => complain [e.message]; return 1
    | .ok code =>
      let stdout ← IO.getStdout
      if list then
        stdout.write ⟨code.listing.toArray⟩
        stdout.flush
        return 0
      match ← live (← IO.getStdin) stdout code (.start Machine.defaultSize {}) with
      | .ok m => complain (level.lines [.ended m.steps]); return 0
      | .error e => complain [e.message]; return 1

end Brainfuck.Cli

open Brainfuck.Cli in
/-- Carry out the command line. -/
def main (args : List String) : IO UInt32 := do
  match Args.parse {} args with
  | .version => IO.print versionText; return 0
  | .help => IO.print helpText; return 0
  | .misuse => IO.eprint helpText; return 2
  | .process path list level =>
    try
      serve path list level
    catch e =>
      complain [(Brainfuck.IoFault.mk .other (toString e)).message]
      return 1
