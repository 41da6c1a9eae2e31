import AtomicSlotMap.Specification.Reference
import AtomicSlotMap.Implementation.Vec

/-! What the map is for when many threads share it: the contents and the pinned values of a single
thread's map, a number of entries that is told up to the updates on the way, and a capacity that
never shrinks.
-/

namespace AtomicSlotMap

variable {K V E : Type}

/-- A 32-bit count is off a size by some updates that it is ahead of and some that it is behind. -/
def CountsWithin (slack size count : Nat) : Prop :=
  count < 2 ^ 32
  ∧ ∃ ahead behind,
      ahead + behind ≤ slack ∧ (count + behind) % 2 ^ 32 = (size + ahead) % 2 ^ 32

/-- The contents of a map, the guards on it, and the largest capacity told so far. -/
structure SharedReference (K V : Type) extends Reference K V where
  capacity : Nat

namespace SharedReference

def empty : SharedReference K V := ⟨.empty, 0⟩

/-- What a call tells about the number of entries, up to so many updates on the way. -/
def Counts (slack size : Nat) : Op K → Res K V E → Prop
  | .lossyLen, res => ∃ count, CountsWithin slack size count ∧ res = .len count
  | .lossyIsEmpty, res => ∃ count, CountsWithin slack size count ∧ res = .isEmpty (count == 0)
  | _, _ => True

/-- What a call tells about the capacity: a sum of chunk sizes that is not below an earlier one. -/
def Tells (capacity : Nat) : Op K → Res K V E → Nat → Prop
  | .capacity, res, capacity' =>
      res = .capacity capacity'
      ∧ capacity ≤ capacity'
      ∧ ∃ chunks ≤ CHUNKS, capacity' = capacityBelow chunks
  | _, _, capacity' => capacity' = capacity

/-- The steps of the reference with their results. -/
structure Step [Key K] (slack : Nat) (ref : SharedReference K V) (op : Op K) (res : Res K V E)
    (ref' : SharedReference K V) : Prop where
  contents : ref.map.Step op res ref'.map
  pins : Reference.Pins ref.pinned op res ref'.pinned
  counts : Counts slack ref.map.keys.card op res
  tells : Tells ref.capacity op res ref'.capacity

end SharedReference

end AtomicSlotMap
