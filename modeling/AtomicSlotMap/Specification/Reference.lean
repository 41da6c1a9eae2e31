import AtomicSlotMap.Specification.FiniteMap

/-! What the map is for on a single thread: a finite map and the multiset of the guards that pin
a value each. Every call tells what these two tell.
-/

namespace AtomicSlotMap

variable {K V E : Type}

/-- Operations on a guard. -/
def Op.onGuard : Op K → Bool
  | .cloneGuard _ | .derefGuard _ | .dropGuard _ | .forgetGuard _ => true
  | _ => false

/-- The guard that a result hands out. -/
def Res.guard? : Res K V E → Option (Guard K V)
  | .got guard => guard
  | .next item _ => item.map Prod.snd
  | .cloned guard => some guard
  | _ => none

/-- The contents of a map and the guards on it, each with the value that it pins. -/
structure Reference (K V : Type) where
  map : FiniteMap V
  pinned : Multiset (Guard K V)

namespace Reference

def empty : Reference K V := ⟨∅, 0⟩

/-- What a call does with the pinned values. A guard keeps its value, whatever becomes of the
key; reading it gives that value, and so do its clones.
-/
inductive Pins (pinned : Multiset (Guard K V)) : Op K → Res K V E → Multiset (Guard K V) → Prop
  | got (key : K) (owning : Bool) (guard : Guard K V)
    (fresh : ∀ other ∈ pinned, other.id ≠ guard.id)
    : Pins pinned (.get key owning) (.got (some guard)) (guard ::ₘ pinned)
  | yielded (currentIdx nextIdx : Nat) (key : K) (guard : Guard K V)
    (fresh : ∀ other ∈ pinned, other.id ≠ guard.id)
    : Pins pinned (.next currentIdx) (.next (some (key, guard)) nextIdx) (guard ::ₘ pinned)
  | cloned (guard clone : Guard K V) (member : guard ∈ pinned) (named : clone.key = guard.key)
    (pointee : clone.pointee = guard.pointee) (fresh : ∀ other ∈ pinned, other.id ≠ clone.id)
    : Pins pinned (.cloneGuard guard.id) (.cloned clone) (clone ::ₘ pinned)
  | read (guard : Guard K V) (member : guard ∈ pinned)
    : Pins pinned (.derefGuard guard.id) (.read guard.pointee) pinned
  | dropped (guard : Guard K V) (others : Multiset (Guard K V))
    (member : pinned = guard ::ₘ others)
    : Pins pinned (.dropGuard guard.id) .done others
  | forgot (guard : Guard K V) (others : Multiset (Guard K V))
    (member : pinned = guard ::ₘ others)
    : Pins pinned (.forgetGuard guard.id) .done others
  | beside (op : Op K) (res : Res K V E) (apart : op.onGuard = false) (none : res.guard? = none)
    : Pins pinned op res pinned

/-- What a call tells about the number of entries. -/
def Counts (size : Nat) : Op K → Res K V E → Prop
  | .lossyLen, res => res = .len size
  | .lossyIsEmpty, res => res = .isEmpty (size == 0)
  | _, _ => True

/-- The steps of the reference with their results. -/
structure Step [Key K] (ref : Reference K V) (op : Op K) (res : Res K V E)
    (ref' : Reference K V) : Prop where
  contents : ref.map.Step op res ref'.map
  pins : Pins ref.pinned op res ref'.pinned
  counts : Counts ref.map.keys.card op res

end Reference

end AtomicSlotMap
