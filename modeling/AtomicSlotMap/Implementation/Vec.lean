import Mathlib.Algebra.Order.BigOperators.Group.Finset
import AtomicSlotMap.Implementation.State

/-! Index arithmetic of `AtomicVec`: the chunk and offset of an index and the sizes of the
chunks.
-/

namespace AtomicSlotMap

/-- `u64::leading_zeros`. -/
def leadingZeros64 (val : Nat) : Nat := if val = 0 then 64 else 63 - Nat.log2 val

/-- The start indices of subsequent chunks. -/
def STARTS : List Nat := [
  0,
  32,
  160,
  672,
  2720,
  10912,
  43680,
  174752,
  699040,
  2796192,
  11184800,
  44739232,
  178956960,
  715827872,
  2863311520
]

/-- Returns the `(chunk, offset)` of the given index. -/
def getLocation (idx : Nat) : Nat × Nat :=
  let val := 3 * idx / 32 + 1
  let log2 := 63 - leadingZeros64 val
  let chunkIdx := log2 / 2
  let start := STARTS.getD chunkIdx 0
  (chunkIdx, idx - start)

/-- The chunk that houses an index. -/
def chunkOf (idx : Nat) : Nat := (getLocation idx).1

/-- The number of chunk pointers of an `AtomicVec`. -/
def CHUNKS : Nat := 15

/-- The number of elements of a chunk. -/
def chunkCapacity (chunk : Nat) : Nat := 32 <<< (chunk * 2)

example : [0, 31, 32, 159, 160, 2 ^ 32 - 1].map chunkOf = [0, 0, 1, 1, 2, 14] := by decide

/-- The number of elements of the chunks before one. -/
def capacityBelow (chunk : Nat) : Nat := ∑ k ∈ Finset.range chunk, chunkCapacity k

/-- The table of start indices is that of the chunk sizes. -/
theorem starts_eq : STARTS = (List.range CHUNKS).map capacityBelow := by decide

theorem chunkCapacity_eq (chunk : Nat) : chunkCapacity chunk = 32 * 4 ^ chunk := by
  rw [chunkCapacity, Nat.shiftLeft_eq, Nat.mul_comm chunk 2, Nat.pow_mul]

@[simp] theorem capacityBelow_succ (chunk : Nat)
    : capacityBelow (chunk + 1) = capacityBelow chunk + chunkCapacity chunk :=
  Finset.sum_range_succ _ _

/-- The sizes form a geometric series, by induction on the chunk. -/
theorem capacityBelow_eq (chunk : Nat) : 3 * capacityBelow chunk + 32 = 32 * 4 ^ chunk := by
  induction chunk with
  | zero => rfl
  | succ chunk ih =>
      rw [capacityBelow_succ, chunkCapacity_eq, Nat.pow_succ]
      omega

theorem capacityBelow_mono {chunk chunk' : Nat} (less : chunk ≤ chunk')
    : capacityBelow chunk ≤ capacityBelow chunk' :=
  Finset.sum_le_sum_of_subset (Finset.range_mono less)

/-- An index lies among those of its chunk. -/
theorem chunkOf_bounds {idx : Nat} (small : idx < 2 ^ 32)
    : capacityBelow (chunkOf idx) ≤ idx ∧ idx < capacityBelow (chunkOf idx + 1) := by
  have chunk : chunkOf idx = (3 * idx / 32 + 1).log2 / 2 := by
    have fits : (3 * idx / 32 + 1).log2 < 64 := (Nat.log2_lt (by omega)).mpr (by omega)
    simp only [chunkOf, getLocation, leadingZeros64, if_neg (Nat.succ_ne_zero _)]
    omega
  have below : 2 ^ (3 * idx / 32 + 1).log2 ≤ 3 * idx / 32 + 1 :=
    Nat.log2_self_le (by omega)
  have above : 3 * idx / 32 + 1 < 2 ^ ((3 * idx / 32 + 1).log2 + 1) := Nat.lt_log2_self
  have lower : 4 ^ chunkOf idx ≤ 3 * idx / 32 + 1 := by
    refine Nat.le_trans ?_ below
    rw [show 4 = 2 ^ 2 from rfl, ← Nat.pow_mul]
    exact Nat.pow_le_pow_right (by omega) (by omega)
  have upper : 3 * idx / 32 + 1 < 4 ^ (chunkOf idx + 1) := by
    refine Nat.lt_of_lt_of_le above ?_
    rw [show 4 = 2 ^ 2 from rfl, ← Nat.pow_mul]
    exact Nat.pow_le_pow_right (by omega) (by omega)
  have start := capacityBelow_eq (chunkOf idx)
  have next := capacityBelow_eq (chunkOf idx + 1)
  omega

/-- The indices of a chunk are exactly those. -/
theorem chunkOf_eq {idx chunk : Nat} (small : idx < 2 ^ 32) (lower : capacityBelow chunk ≤ idx)
    (upper : idx < capacityBelow (chunk + 1))
    : chunkOf idx = chunk := by
  obtain ⟨start, next⟩ := chunkOf_bounds small
  by_contra other
  rcases Nat.lt_or_gt_of_ne other with less | more
  · have := capacityBelow_mono (show chunkOf idx + 1 ≤ chunk from less)
    omega
  · have := capacityBelow_mono (show chunk + 1 ≤ chunkOf idx from more)
    omega

/-- Every index has a chunk pointer. -/
theorem chunkOf_lt {idx : Nat} (small : idx < 2 ^ 32) : chunkOf idx < CHUNKS := by
  by_contra beyond
  have start := (chunkOf_bounds small).1
  have more := capacityBelow_mono (Nat.le_of_not_lt beyond)
  have total : capacityBelow CHUNKS = 11453246112 := by decide
  omega

end AtomicSlotMap
