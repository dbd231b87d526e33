import Brainfuck.Op.Basic

/-!
# Spelling operations out

Every operation but the trap stands for a piece of program text. Spelling out
an array gives the text back that it was made from, except that a loop which
only adds, or only subtracts, is spelled as the shortest such loop.
`normalSource` makes the same change to a text directly.
-/

namespace Brainfuck

namespace Op

/-- `n` moves to the right, or as many to the left if `n` is negative. -/
def spellMoves (n : Int) : List UInt8 :=
  List.replicate n.natAbs (if 0 ≤ n then Action.right.byte else Action.left.byte)

/-- The text between the brackets of a loop, with the brackets. -/
def bracket (body : List UInt8) : List UInt8 :=
  Instr.opening.byte :: body ++ [Instr.closing.byte]

/-- The text an operation stands for. -/
def spell : Op → List UInt8
  | .run a n => List.replicate n a.byte
  | .jumpZero _ => [Instr.opening.byte]
  | .jumpNonzero _ => [Instr.closing.byte]
  | .clear => bracket [Action.dec.byte]
  | .scan stride => bracket (spellMoves stride)
  | .transfer offset =>
    bracket (Action.dec.byte :: spellMoves offset ++ Action.inc.byte :: spellMoves (-offset))
  | .trap => []

end Op

/-- The text an operation array stands for. -/
def Code.spell (code : Code) : List UInt8 := code.toList.flatMap Op.spell

/-- What follows a loop that only adds or only subtracts, given what follows its
`[`; `none` if the loop is of another kind. -/
def afterClearing? : List UInt8 → Option (List UInt8)
  | [] => none
  | b :: rest =>
    if b = Action.inc.byte ∨ b = Action.dec.byte then
      match rest.dropWhile (· == b) with
      | [] => none
      | c :: after => if c = Instr.closing.byte then some after else none
    else none

/-- What follows is shorter. -/
theorem length_afterClearing? {bs after : List UInt8} (h : afterClearing? bs = some after) :
    after.length < bs.length := by
  match bs with
  | [] => simp [afterClearing?] at h
  | b :: rest =>
    rw [afterClearing?] at h
    split at h
    · split at h
      · cases h
      · rename_i c tail hdrop
        split at h
        · cases h
          have hle := (List.dropWhile_sublist (l := rest) (· == b)).length_le
          rw [hdrop, List.length_cons] at hle
          rw [List.length_cons]
          omega
        · cases h
    · cases h

/-- A text in which every loop that only adds or only subtracts is `[-]`. -/
def normalSource : List UInt8 → List UInt8
  | [] => []
  | b :: rest =>
    if b = Instr.opening.byte then
      match _h : afterClearing? rest with
      | some after => Op.bracket [Action.dec.byte] ++ normalSource after
      | none => b :: normalSource rest
    else b :: normalSource rest
termination_by bs => bs.length
decreasing_by
  · have := length_afterClearing? _h
    rw [List.length_cons]
    omega
  · exact Nat.lt_succ_self _
  · exact Nat.lt_succ_self _

end Brainfuck
