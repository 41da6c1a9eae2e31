import Mathlib.Data.Finmap
import AtomicSlotMap.Implementation.State

/-! What the slot map is for: a finite map from an index and an odd version to values, whose
insertions choose an absent key.
-/

namespace AtomicSlotMap

variable {K V E : Type} [Key K]

/-- Values by index and version. -/
abbrev FiniteMap (V : Type) := Finmap fun _ : Nat × Nat => Stored V

/-- Operations that neither look at the contents of the map nor change them. -/
def Op.beside : Op K → Bool
  | .tryInsertWithKey | .remove _ | .get _ _ | .containsKey _ | .next _ => false
  | _ => true

/-- The steps of the abstract map with their results. An iterator may yield any entry. -/
inductive FiniteMap.Step (map : FiniteMap V) : Op K → Res K V E → FiniteMap V → Prop
  | inserted (key : K) (stored : Stored V) (absent : KeyData.place key ∉ map)
    : Step map .tryInsertWithKey (.inserted key stored)
        (map.insert (KeyData.place key) stored)
  | failed (err : E) : Step map .tryInsertWithKey (.failed err) map
  | removed (key : K) (present : KeyData.place key ∈ map)
    : Step map (.remove key) (.removed true) (map.erase (KeyData.place key))
  | notRemoved (key : K) (absent : KeyData.place key ∉ map)
    : Step map (.remove key) (.removed false) map
  | got (key : K) (owning : Bool) (guard : Guard K V) (stored : Stored V)
    (bound : map.lookup (KeyData.place key) = some stored) (named : guard.key = key)
    (owned : guard.owning = owning) (pointee : guard.pointee = some stored)
    : Step map (.get key owning) (.got (some guard)) map
  | missed (key : K) (owning : Bool) (absent : KeyData.place key ∉ map)
    : Step map (.get key owning) (.got none) map
  | contains (key : K)
    : Step map (.containsKey key) (.contains (decide (KeyData.place key ∈ map))) map
  | yielded (currentIdx nextIdx : Nat) (key : K) (guard : Guard K V) (stored : Stored V)
    (bound : map.lookup (KeyData.place key) = some stored) (named : guard.key = key)
    (pointee : guard.pointee = some stored)
    : Step map (.next currentIdx) (.next (some (key, guard)) nextIdx) map
  | exhausted (currentIdx nextIdx : Nat) : Step map (.next currentIdx) (.next none nextIdx) map
  | beside (op : Op K) (res : Res K V E) (apart : op.beside = true) : Step map op res map

end AtomicSlotMap
