/-!
# Number ranges of the machine

Counters (operation indices, step counts, run lengths) are 64-bit unsigned
and cell offsets are 64-bit signed. The library computes in `Nat` and `Int`,
so nothing wraps; where a value would leave its range it stays at the end of
the range instead, and each such place calls a function of this module.
-/

namespace Brainfuck

/-- The largest counter, one less than the 64th power of two. -/
def counterMax : Nat := 18446744073709551615

/-- The largest cell offset, one less than the 63rd power of two. -/
def offsetMax : Nat := 9223372036854775807

/-- The smallest cell offset. -/
def offsetMin : Int := -9223372036854775808

/-- The next counter value; the largest counter is its own successor. -/
def bump (n : Nat) : Nat := if n < counterMax then n + 1 else counterMax

/-- A counter as an offset: exact up to `offsetMax`, and `offsetMax` beyond. -/
def reach (n : Nat) : Int := if n ≤ offsetMax then n else offsetMax

/-- The offset nearest to an integer. -/
def clampOffset (x : Int) : Int := max offsetMin (min (offsetMax : Int) x)

theorem bump_le (n : Nat) : bump n ≤ counterMax := by
  unfold bump
  split <;> omega

theorem bump_le_succ (n : Nat) : bump n ≤ n + 1 := by
  unfold bump
  split <;> omega

theorem bump_of_lt {n : Nat} (h : n < counterMax) : bump n = n + 1 := if_pos h

theorem reach_of_le {n : Nat} (h : n ≤ offsetMax) : reach n = n := if_pos h

theorem reach_nonneg (n : Nat) : 0 ≤ reach n := by
  unfold reach
  split <;> omega

theorem reach_le (n : Nat) : reach n ≤ offsetMax := by
  unfold reach
  split <;> omega

theorem clampOffset_of_mem {x : Int} (h₁ : offsetMin ≤ x) (h₂ : x ≤ offsetMax) :
    clampOffset x = x := by
  unfold clampOffset
  omega

end Brainfuck
