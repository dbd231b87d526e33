import Brainfuck.Cli.Args
import Brainfuck.Cli.Folder
import Brainfuck.Compile
import Brainfuck.Machine.Run
import Brainfuck.Op.Listing

/-!
# What the command line does

The whole of an invocation as a function: from a folder, the arguments and the
standard input to the exit status and what appears on the two outputs. Log
lines come before the line of a failure, and what a program wrote before it
failed has been written.
-/

namespace Brainfuck.Cli

/-- What an invocation shows. -/
structure Report where
  status : Nat
  stdout : List UInt8 := []
  /-- The lines on the standard error output; `none` where their wording is left
  open, which is the case for hints on usage. -/
  stderr : Option (List String) := some []
  deriving DecidableEq, Repr

/-- Name and version. -/
def versionText : String := "bfopt 0.1.0\n"

/-- What the arguments mean. -/
def helpText : String :=
  "An optimizing Brainfuck interpreter\n\n" ++
  "Usage: bfopt [OPTIONS] <SRC_FILE>\n\n" ++
  "Arguments:\n" ++
  "  <SRC_FILE>\n          The brainfuck file.\n\n" ++
  "Options:\n" ++
  "  -d, --dump\n          Print the optimized operations instead of running them.\n" ++
  "  -v, --verbose...\n          Log to stderr. Repeat for more detail.\n" ++
  "  -h, --help\n          Print help\n" ++
  "  -V, --version\n          Print version\n"

/-- The bytes of a text. -/
def bytesOf (text : String) : List UInt8 := text.toUTF8.data.toList

/-- The line for a source file that cannot be read. -/
def unreadable (path : String) (e : FileError) : String :=
  s!"Error reading the Brainfuck file {path}: {e.text}"

/-- A report on a failure, after some log lines. -/
def failure (stdout : List UInt8) (log : List String) (line : String) : Report :=
  { status := 1, stdout := stdout, stderr := some (log ++ line.splitOn "\n") }

/-- Run an operation array, or list it. `events` were logged before. -/
def process (fuel : Nat) (code : Code) (list : Bool) (level : Level) (events : List Event)
    (input : List UInt8) : Option Report :=
  let console : Console := { reader := .ofBytes input }
  if list then
    match code.print console with
    | .done _ c => some { status := 0, stdout := c.output, stderr := some (level.lines events) }
    | .failed f c => some (failure c.output (level.lines events) f.message)
    | .unfinished => none
  else
    match execute code fuel console with
    | .done _ m => some
        { status := 0
          stdout := m.console.output
          stderr := some (level.lines (events ++ [.ended m.steps])) }
    | .failed e m => some (failure m.console.output (level.lines events) e.message)
    | .unfinished => none

/-- Carry out an invocation. There is no report on a program that does not end
within `fuel` operations. -/
def invoke (fuel : Nat) (folder : Folder) (args : List String) (input : List UInt8) :
    Option Report :=
  match Args.parse {} args with
  | .version => some { status := 0, stdout := bytesOf versionText }
  | .help => some { status := 0, stdout := bytesOf helpText }
  | .misuse => some { status := 2, stderr := none }
  | .process path list level =>
    match folder.read path with
    | .error e => some (failure [] [] (unreadable path e))
    | .ok source =>
      let compilation := (Program.ofSource source).compile
      match compilation.result with
      | .error e => some (failure [] (level.lines compilation.events) e.message)
      | .ok code => process fuel code list level compilation.events input

end Brainfuck.Cli
