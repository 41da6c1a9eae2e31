import Mathlib.Algebra.Order.BigOperators.Group.Finset
import Mathlib.Data.Prod.Lex

/-! Numbers laid out in consecutive blocks. A cell is a block and an offset in it; in the order of
the cells, by the block first, their numbers increase.
-/

namespace Library.Blocks

variable {size : Nat → Nat}

/-- The numbers in the blocks before one. -/
def start (size : Nat → Nat) (block : Nat) : Nat := ∑ k ∈ Finset.range block, size k

/-- The cells of all blocks. -/
def cells (size : Nat → Nat) : Set (Nat ×ₗ Nat) := {cell | (ofLex cell).2 < size (ofLex cell).1}

/-- The number of a cell. -/
def number (size : Nat → Nat) (cell : Nat ×ₗ Nat) : Nat :=
  start size (ofLex cell).1 + (ofLex cell).2

/-- A block ends before the next one starts. -/
theorem start_add_le {block block' : Nat} (less : block < block')
    : start size block + size block ≤ start size block' := by
  calc start size block + size block
    _ = start size (block + 1) := (Finset.sum_range_succ _ _).symm
    _ ≤ start size block' := Finset.sum_le_sum_of_subset (Finset.range_mono less)

/-- Later cells have larger numbers, by cases on whether they are in the same block. -/
theorem strictMonoOn_number : StrictMonoOn (number size) (cells size) := by
  intro cell within cell' _ less
  have within : (ofLex cell).2 < size (ofLex cell).1 := within
  rw [number, number]
  rcases Prod.Lex.lt_iff.mp less with earlier | ⟨same, before⟩
  · have before : start size (ofLex cell).1 + size (ofLex cell).1 ≤ start size (ofLex cell').1 :=
      start_add_le earlier
    omega
  · rw [← same]
    omega

end Library.Blocks
