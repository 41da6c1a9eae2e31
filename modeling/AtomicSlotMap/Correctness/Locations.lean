import AtomicSlotMap.Implementation.Vec
import AtomicSlotMap.Library.Blocks

/-! `get_location` numbers the cells of the chunks in order. The chunk comes from a bit length, the
offset from a table and the size of a chunk from a shift; the three agree for every index.
-/

namespace AtomicSlotMap

open Library

/-- The table of start indices holds what the chunks before each one house. -/
theorem starts_getElem? {chunk : Nat} (less : chunk < CHUNKS)
    : STARTS[chunk]? = some (capacityBelow chunk) := by
  rw [starts_eq, List.getElem?_map, List.getElem?_range less]
  rfl

/-- The offset of an index counts from the start of its chunk. -/
theorem getLocation_offset {idx : Nat} (small : idx < 2 ^ 32)
    : (getLocation idx).2 = idx - capacityBelow (chunkOf idx) := by
  have found := starts_getElem? (chunkOf_lt small)
  change idx - STARTS.getD (chunkOf idx) 0 = _
  rw [List.getD_eq_getElem?_getD, found, Option.getD_some]

/-- The location of an index is a cell. -/
theorem getLocation_mem_cells {idx : Nat} (small : idx < 2 ^ 32)
    : toLex (getLocation idx) ∈ Blocks.cells chunkCapacity := by
  obtain ⟨start, next⟩ := chunkOf_bounds small
  have offset := getLocation_offset small
  rw [capacityBelow_succ] at next
  change (getLocation idx).2 < chunkCapacity (chunkOf idx)
  omega

/-- The location of an index is the cell with that number. -/
theorem number_getLocation {idx : Nat} (small : idx < 2 ^ 32)
    : Blocks.number chunkCapacity (toLex (getLocation idx)) = idx := by
  have start := (chunkOf_bounds small).1
  have offset := getLocation_offset small
  change capacityBelow (chunkOf idx) + (getLocation idx).2 = idx
  omega

/-- A chunk starts after the sizes of those before it. -/
theorem sum_sizes (chunk : Nat)
    : ∑ k ∈ Finset.range chunk, 32 * 4 ^ k = Blocks.start chunkCapacity chunk :=
  Finset.sum_congr rfl fun k _ => (chunkCapacity_eq k).symm

/-- `get_location` is a bijection from the 32-bit indices to the cells with a 32-bit number, and it
keeps the order. The read of the table is in range, the subtraction does not underflow, and
the offset is within the elements allocated for the chunk.
-/
theorem getLocation_bijective
    : (∀ idx : UInt32, ∃ chunk offset start,
        getLocation idx.toNat = (chunk, offset)
        ∧ chunk < CHUNKS
        ∧ STARTS[chunk]? = some start
        ∧ start ≤ idx.toNat
        ∧ offset < chunkCapacity chunk
        ∧ chunkCapacity chunk = 32 * 4 ^ chunk
        ∧ offset + ∑ k ∈ Finset.range chunk, 32 * 4 ^ k = idx.toNat)
      ∧ (∀ idx idx' : UInt32,
          idx < idx' ↔ toLex (getLocation idx.toNat) < toLex (getLocation idx'.toNat))
      ∧ ∀ chunk < CHUNKS, ∀ offset < 32 * 4 ^ chunk,
          offset + ∑ k ∈ Finset.range chunk, 32 * 4 ^ k < 2 ^ 32 →
            ∃! idx : UInt32, getLocation idx.toNat = (chunk, offset) := by
  refine ⟨fun idx => ?_, fun idx idx' => ?_, fun chunk less offset within small => ?_⟩
  · have start := (chunkOf_bounds idx.toNat_lt).1
    refine ⟨_, _, _, rfl, chunkOf_lt idx.toNat_lt, starts_getElem? (chunkOf_lt idx.toNat_lt),
      start, getLocation_mem_cells idx.toNat_lt, chunkCapacity_eq _, ?_⟩
    rw [sum_sizes, Nat.add_comm]
    exact number_getLocation idx.toNat_lt
  · rw [← Blocks.strictMonoOn_number.lt_iff_lt (getLocation_mem_cells idx.toNat_lt)
      (getLocation_mem_cells idx'.toNat_lt), number_getLocation idx.toNat_lt,
      number_getLocation idx'.toNat_lt]
    exact UInt32.lt_iff_toNat_lt
  · rw [sum_sizes] at small
    rw [← chunkCapacity_eq] at within
    have number (idx : UInt32) (located : getLocation idx.toNat = (chunk, offset)) :
        idx.toNat = offset + Blocks.start chunkCapacity chunk := by
      rw [← number_getLocation idx.toNat_lt, located, Nat.add_comm]
      rfl
    let idx := UInt32.ofNat (offset + Blocks.start chunkCapacity chunk)
    have placed : idx.toNat = offset + Blocks.start chunkCapacity chunk :=
      UInt32.toNat_ofNat_of_lt' small
    have located : toLex (getLocation idx.toNat) = toLex (chunk, offset) := by
      apply Blocks.strictMonoOn_number.injOn (getLocation_mem_cells idx.toNat_lt) within
      rw [number_getLocation idx.toNat_lt, placed, Nat.add_comm]
      rfl
    refine ⟨idx, located, fun other same => UInt32.toNat_inj.mp ?_⟩
    rw [number other same, placed]

end AtomicSlotMap
