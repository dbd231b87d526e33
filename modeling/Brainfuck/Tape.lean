/-!
# The tape

A row of byte cells, of a length that is fixed when the tape is made.
-/

namespace Brainfuck

/-- A row of cells. -/
structure Tape where
  cells : Array UInt8
  deriving DecidableEq, Repr

namespace Tape

/-- A tape of `n` cells, all zero. -/
def blank (n : Nat) : Tape := ⟨Array.replicate n 0⟩

/-- The number of cells. -/
def size (t : Tape) : Nat := t.cells.size

/-- The value of a cell; a cell that is not on the tape counts as zero. -/
def get (t : Tape) (i : Nat) : UInt8 := t.cells.getD i 0

/-- Change the value of a cell; there is no effect off the tape. -/
def set (t : Tape) (i : Nat) (v : UInt8) : Tape := ⟨t.cells.setIfInBounds i v⟩

/-- The cells below index `n` that are not zero, in front of `later`. -/
def nonzeroBelow (t : Tape) : Nat → List (Nat × UInt8) → List (Nat × UInt8)
  | 0, later => later
  | i + 1, later => t.nonzeroBelow i (if t.get i = 0 then later else (i, t.get i) :: later)

/-- The cells that are not zero, with their indices, in order. -/
def nonzero (t : Tape) : List (Nat × UInt8) := t.nonzeroBelow t.size []

@[simp] theorem size_blank (n : Nat) : (blank n).size = n := by
  simp [blank, size]

@[simp] theorem size_set (t : Tape) (i : Nat) (v : UInt8) : (t.set i v).size = t.size := by
  simp [set, size]

@[simp] theorem get_blank (n i : Nat) : (blank n).get i = 0 := by
  unfold blank get
  rw [Array.getD_eq_getD_getElem?, Array.getElem?_replicate]
  split <;> rfl

theorem get_set_self {t : Tape} {i : Nat} (v : UInt8) (h : i < t.size) :
    (t.set i v).get i = v := by
  have hi : i < t.cells.size := h
  simp [set, get, hi]

theorem get_set_ne (t : Tape) {i j : Nat} (v : UInt8) (h : i ≠ j) :
    (t.set i v).get j = t.get j := by
  simp [set, get, Array.getD_eq_getD_getElem?, Array.getElem?_setIfInBounds_ne h]

/-- The last of two values for a cell counts. -/
theorem set_set (t : Tape) (i : Nat) (v w : UInt8) : (t.set i v).set i w = t.set i w := by
  simp [set, Array.setIfInBounds_setIfInBounds]

/-- Different cells can be changed in any order. -/
theorem set_comm (t : Tape) {i j : Nat} (v w : UInt8) (h : i ≠ j) :
    (t.set i v).set j w = (t.set j w).set i v := by
  simp [set, Array.setIfInBounds_comm v w h]

/-- A cell that is given its own value does not change. -/
theorem set_get (t : Tape) (i : Nat) : t.set i (t.get i) = t := by
  obtain ⟨cells⟩ := t
  unfold set get
  congr 1
  refine Array.ext (by simp) ?_
  intro j hj hj'
  rw [Array.getElem_setIfInBounds hj']
  split
  · rename_i h
    subst h
    simp [hj']
  · rfl

end Tape

end Brainfuck
