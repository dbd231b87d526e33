import Brainfuck.Op.Basic

/-!
# Canonical arrays

The shape of the arrays that come out of the compiler, said about the arrays
alone: brackets are matched and nested, runs are as long as possible, and no
loop is left that a single operation could do.
-/

namespace Brainfuck

namespace Op

/-- The loop bodies that one operation stands for, with that operation. -/
inductive Idiom : List Op → Op → Prop where
  | adding (n : Nat) : Idiom [.run .inc n] .clear
  | subtracting (n : Nat) : Idiom [.run .dec n] .clear
  | scanRight (n : Nat) : Idiom [.run .right n] (.scan n)
  | scanLeft (n : Nat) : Idiom [.run .left n] (.scan (-n))
  | giveRight (k : Nat) :
      Idiom [.run .dec 1, .run .right k, .run .inc 1, .run .left k] (.transfer k)
  | giveLeft (k : Nat) :
      Idiom [.run .dec 1, .run .left k, .run .inc 1, .run .right k] (.transfer (-k))

end Op

namespace Code

/-- The operations strictly between two indices. -/
def between (code : Code) (i j : Nat) : List Op := (code.extract (i + 1) j).toList

/-- The jumps at `i` and `j` are the two ends of a loop. -/
structure Pair (code : Code) (i j : Nat) : Prop where
  lt : i < j
  opens : code[i]? = some (.jumpZero j)
  closes : code[j]? = some (.jumpNonzero i)

/-- The shape of a compiled array. -/
structure Canonical (code : Code) : Prop where
  /-- Every opening jump has a partner. -/
  opening : ∀ i j : Nat, code[i]? = some (.jumpZero j) → code.Pair i j
  /-- Every closing jump has a partner. -/
  closing : ∀ i j : Nat, code[j]? = some (.jumpNonzero i) → code.Pair i j
  /-- A loop that starts inside another one ends inside it. -/
  nested : ∀ i j i' j', code.Pair i j → code.Pair i' j' → i < i' → i' < j → j' < j
  /-- Runs are not empty. -/
  positive : ∀ (i : Nat) a n, code[i]? = some (.run a n) → 0 < n
  /-- Runs of the same action do not meet. -/
  maximal : ∀ (i : Nat) a n k, code[i]? = some (.run a n) → code[i + 1]? ≠ some (.run a k)
  /-- Scans move. -/
  scans : ∀ (i : Nat) d, code[i]? = some (.scan d) → d ≠ 0
  /-- Transfers go to another cell. -/
  transfers : ∀ (i : Nat) d, code[i]? = some (.transfer d) → d ≠ 0
  /-- There are no traps. -/
  noTrap : ∀ i : Nat, code[i]? ≠ some .trap
  /-- No remaining loop is an idiom. -/
  noIdiom : ∀ i j op, code.Pair i j → ¬ Op.Idiom (code.between i j) op

end Code

end Brainfuck
