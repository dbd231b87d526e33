import Brainfuck.Compile.Pass
import Brainfuck.Program

/-!
# Compiling

`compile` turns a program into an operation array, or says why it cannot. The
events of the way there are kept in both cases; the closing event, which
announces the array, only comes with an array.
-/

namespace Brainfuck

/-- What compiling a program gave. -/
structure Compilation where
  /-- What happened on the way, in order. -/
  events : List Event
  result : Except CompileError Code

namespace Pass

/-- Take in all of `rest`, token by token. `log` has the events so far, latest
first. -/
def drive (p : Pass) (log : List Event) : List UInt8 → Compilation
  | [] =>
    match p.finish with
    | .error e => ⟨log.reverse, .error e⟩
    | .ok code => ⟨(.compiled p.pos code.size :: log).reverse, .ok code⟩
  | b :: rest =>
    let n := tokenLength b rest
    match p.advance b n with
    | .error e => ⟨log.reverse, .error e⟩
    | .ok (q, news) => drive q (news.toList ++ log) (rest.drop (n - 1))
termination_by rest => rest.length
decreasing_by
  rw [List.length_drop, List.length_cons]
  omega

end Pass

/-- Compile the bytes of a program. -/
def compile (bytes : List UInt8) : Compilation := Pass.drive {} [] bytes

/-- Compile a program. -/
def Program.compile (p : Program) : Compilation := Brainfuck.compile p.toList

end Brainfuck
