import Brainfuck.Main
import Brainfuck.Op.Canonical
import Brainfuck.Op.Spelling
import Brainfuck.Plain
import Brainfuck.Session
import Brainfuck.Proofs.Block
import Brainfuck.Proofs.Draft
import Brainfuck.Proofs.Brackets
import Brainfuck.Proofs.Verdict
import Brainfuck.Proofs.Form
import Brainfuck.Proofs.PlainRun
import Brainfuck.Proofs.PlainIdiom
import Brainfuck.Proofs.Agreement
import Brainfuck.Proofs.Places
import Brainfuck.Proofs.Refinement
import Brainfuck.Proofs.Composition
import Brainfuck.Proofs.Spelling
import Brainfuck.Proofs.Image
import Brainfuck.Proofs.ControlFlow
import Brainfuck.Proofs.Commands
import Brainfuck.Proofs.Footing
import Brainfuck.Proofs.Safety
import Brainfuck.Proofs.Coupling
import Brainfuck.Proofs.Guarded
import Brainfuck.Proofs.LongerTape
import Brainfuck.Proofs.Resuming
import Brainfuck.Proofs.Limits
import Brainfuck.Proofs.Exchanges
import Brainfuck.Proofs.Pieces
import Brainfuck.Proofs.ShortWriter
import Brainfuck.Proofs.Leftovers
import Brainfuck.Proofs.Stretches
import Brainfuck.Proofs.Fusion
import Brainfuck.Proofs.Loading
import Brainfuck.Proofs.Targets
import Brainfuck.Proofs.Scanning
import Brainfuck.Proofs.Announcements
import Brainfuck.Proofs.Listing
import Brainfuck.Proofs.Rounds
