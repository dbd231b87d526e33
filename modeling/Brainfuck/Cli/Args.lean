import Brainfuck.Log

/-!
# Command line arguments

One argument names the source file; the others are flags, single or joined
behind one hyphen. Arguments are taken in from left to right, and the first
one that settles the matter (a request for the version or for help, or a
mistake) is the last one that is looked at. Behind `--` nothing is a flag.
-/

namespace Brainfuck.Cli

/-- What the user wants. -/
inductive Request where
  /-- Run the program in a file, or list its operations. -/
  | process (path : String) (list : Bool) (level : Level)
  /-- Print the version. -/
  | version
  /-- Print what the arguments mean. -/
  | help
  /-- The arguments make no sense. -/
  | misuse
  deriving DecidableEq, Repr

/-- The arguments seen so far. -/
structure Args where
  path : Option String := none
  /-- Whether a listing was asked for. -/
  list : Bool := false
  /-- How often more detail was asked for. -/
  verbosity : Nat := 0
  deriving DecidableEq, Repr

namespace Args

/-- The level of the log for a number of requests for more detail. -/
def levelOf : Nat → Level
  | 0 => .warn
  | 1 => .info
  | 2 => .debug
  | _ => .trace

/-- A file name. There can be one, and it is not empty. -/
def name (a : Args) (path : String) : Except Request Args :=
  if a.path.isSome || path.isEmpty then .error .misuse else .ok { a with path := some path }

/-- The flag for listing the operations, which may be given once. -/
def listing (a : Args) : Except Request Args :=
  if a.list then .error .misuse else .ok { a with list := true }

/-- The flag for more detail, which may be given any number of times. -/
def verbose (a : Args) : Except Request Args := .ok { a with verbosity := a.verbosity + 1 }

/-- A flag of one letter. -/
def short (a : Args) : Char → Except Request Args
  | 'd' => a.listing
  | 'v' => a.verbose
  | 'V' => .error .version
  | 'h' => .error .help
  | _ => .error .misuse

/-- Flags of one letter, joined. -/
def cluster (a : Args) : List Char → Except Request Args
  | [] => .ok a
  | c :: cs =>
    match a.short c with
    | .ok a => a.cluster cs
    | .error r => .error r

/-- A flag that is a word. It cannot be shortened and takes no value. -/
def long (a : Args) : String → Except Request Args
  | "dump" => a.listing
  | "verbose" => a.verbose
  | "version" => .error .version
  | "help" => .error .help
  | _ => .error .misuse

/-- One argument in front of `--`. -/
def take (a : Args) (arg : String) : Except Request Args :=
  match arg.toList with
  | '-' :: '-' :: word => a.long (String.ofList word)
  | '-' :: c :: cs => a.cluster (c :: cs)
  | _ => a.name arg

/-- The request when all arguments are taken in: a file name must be there. -/
def request (a : Args) : Request :=
  match a.path with
  | some path => .process path a.list (levelOf a.verbosity)
  | none => .misuse

/-- Take in the arguments behind `--`. -/
def parseNames (a : Args) : List String → Request
  | [] => a.request
  | arg :: args =>
    match a.name arg with
    | .ok a => a.parseNames args
    | .error r => r

/-- Take in arguments. -/
def parse (a : Args) : List String → Request
  | [] => a.request
  | arg :: args =>
    if arg = "--" then a.parseNames args
    else
      match a.take arg with
      | .ok a => a.parse args
      | .error r => r

end Args

end Brainfuck.Cli
