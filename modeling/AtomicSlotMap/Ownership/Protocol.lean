import AtomicSlotMap.Library.Counting
import AtomicSlotMap.Ownership.Lifecycle
import Mathlib.Data.Multiset.Count

/-! The ownership protocol: what the activities do to the slots, without program counters,
chunks and the packed free head. The free list is an abstract stack and each activity has a
role towards at most one slot.
-/

namespace AtomicSlotMap

variable {T K V E : Type} [Key K]

/-- What an activity has to do with a slot at the moment. -/
inductive Role (K V : Type)
  | none
  /-- Holds the slot, which has no value. -/
  | reserved (idx : Nat)
  /-- Has written the value of its insertion. -/
  | filled (idx : Nat) (stored : Stored V)
  /-- Has stored the map's reference as well. -/
  | armed (idx : Nat) (stored : Stored V)
  /-- Has removed the key and still owns the map's reference. -/
  | retiring (key : K)
  /-- Has a temporary reference. -/
  | temp (idx : Nat)
  /-- Is dropping a guard that still has its reference. -/
  | unguarding (guard : Guard K V)
  /-- Has released the last reference and must drop the value. -/
  | dropping (idx : Nat)
  /-- Has dropped the value and must put the slot back. -/
  | emptied (idx : Nat)

/-- The slot a role is about. -/
def Role.slot : Role K V → Option Nat
  | .none => Option.none
  | .reserved idx | .filled idx _ | .armed idx _ | .temp idx | .dropping idx
  | .emptied idx => some idx
  | .retiring key => some (KeyData.idx key)
  | .unguarding guard => some (KeyData.idx guard.key)

/-- References to a slot that a role accounts for, beside the map's own. -/
def Role.refs (idx : Nat) : Role K V → Nat
  | .temp held => if held = idx then 1 else 0
  | .unguarding guard => if KeyData.idx guard.key = idx then 1 else 0
  | _ => 0

/-- The roles that hold a slot without a value. -/
def Role.vacant (idx : Nat) : Role K V → Prop
  | .reserved held | .emptied held => held = idx
  | _ => False

/-- The roles that end with a decrement of the reference count. -/
def Role.references (idx : Nat) : Role K V → Prop
  | .temp held => held = idx
  | .retiring key => KeyData.idx key = idx
  | .unguarding guard => KeyData.idx guard.key = idx
  | _ => False

/-- The state the protocol speaks about. `guards` are all guards that exist, leaked ones
included. -/
structure Ownership (T K V : Type) where
  slots : Nat → Slot V
  len : Nat
  free : List Nat
  role : T → Role K V
  guards : Multiset (Guard K V)
  trace : List (Event T K V)

namespace Ownership

variable [DecidableEq T]

/-- The phase of each slot. -/
def phase (w : Ownership T K V) : Nat → Phase T K V := phaseOf w.trace

/-- References to a slot other than the map's own: guards and temporary references. -/
def refs [Fintype T] (w : Ownership T K V) (idx : Nat) : Nat :=
  (∑ t, (w.role t).refs idx) + w.guards.countP (fun guard => KeyData.idx guard.key = idx)

/-- Nothing exists yet. -/
def empty (T K V : Type) : Ownership T K V where
  slots := fun _ => Slot.zeroed
  len := 0
  free := []
  role := fun _ => .none
  guards := 0
  trace := []

/-- An actor changes its role, a slot and the trace. -/
def act (w : Ownership T K V) (t : T) (role : Role K V) (idx : Nat) (slot : Slot V)
    (event : Event T K V)
    : Ownership T K V :=
  {
    w with
    role := Function.update w.role t role
    slots := Function.update w.slots idx slot
    trace := event :: w.trace
  }

/-- The steps of the protocol. -/
inductive Step (w : Ownership T K V) : Ownership T K V → Prop
  | pop (t : T) (idx : Nat) (rest : List Nat) (idle : w.role t = .none)
    (top : w.free = idx :: rest)
    : Step w
        {
          w with
          free := rest
          role := Function.update w.role t (.reserved idx)
          trace := .popped t idx :: w.trace
        }
  | push (t : T) (idle : w.role t = .none) (room : w.len + 1 < 2 ^ 32)
    : Step w
        {
          w with
          len := w.len + 1
          role := Function.update w.role t (.reserved w.len)
          trace := .pushed t w.len :: w.trace
        }
  | recycle (t : T) (idx : Nat) (holds : (w.role t).vacant idx)
    : Step w
        {
          w with
          free := idx :: w.free
          role := Function.update w.role t .none
          trace := .recycled t idx :: w.trace
        }
  | link (t : T) (idx next : Nat) (holds : (w.role t).vacant idx)
    : Step w
        {
          w with
          slots := Function.update w.slots idx { w.slots idx with nextFree := next }
        }
  | write (t : T) (idx : Nat) (stored : Stored V) (holds : w.role t = .reserved idx)
    (fresh : stored.serial = w.trace.length)
    : Step w
        (w.act t (.filled idx stored) idx { w.slots idx with data := some stored }
          (.wrote t idx stored))
  | arm (t : T) (idx : Nat) (stored : Stored V) (holds : w.role t = .filled idx stored)
    : Step w
        (w.act t (.armed idx stored) idx { w.slots idx with refCount := 1 } (.armed t idx))
  | publish (t : T) (key : K) (stored : Stored V)
    (holds : w.role t = .armed (KeyData.idx key) stored)
    (version : KeyData.version key = (w.slots (KeyData.idx key)).version ||| 1)
    : Step w
        (w.act t .none (KeyData.idx key)
          { w.slots (KeyData.idx key) with version := KeyData.version key }
          (.published t key stored))
  | retire (t : T) (key : K) (idle : w.role t = .none)
    (current : (w.slots (KeyData.idx key)).version = KeyData.version key)
    : Step w
        (w.act t (.retiring key) (KeyData.idx key)
          { w.slots (KeyData.idx key) with version := wrappingAdd (KeyData.version key) 1 }
          (.retired t key))
  | acquire (t : T) (idx : Nat) (idle : w.role t = .none)
    (positive : 0 < (w.slots idx).refCount) (room : (w.slots idx).refCount + 1 < 2 ^ 32)
    : Step w
        {
          w with
          slots := Function.update w.slots idx
            { w.slots idx with refCount := (w.slots idx).refCount + 1 }
          role := Function.update w.role t (.temp idx)
        }
  | guard (t : T) (guard : Guard K V) (holds : w.role t = .temp (KeyData.idx guard.key))
    (current : (w.slots (KeyData.idx guard.key)).version = KeyData.version guard.key)
    (pointee : guard.pointee = (w.slots (KeyData.idx guard.key)).data)
    : Step w
        {
          w with
          role := Function.update w.role t .none
          guards := guard ::ₘ w.guards
        }
  | giveUp (t : T) (idx : Nat) (holds : (w.role t).references idx)
    (more : (w.slots idx).refCount ≠ 1)
    : Step w
        (w.act t .none idx
          { w.slots idx with refCount := wrappingSub (w.slots idx).refCount 1 }
          (.gaveUp t idx))
  | release (t : T) (idx : Nat) (holds : (w.role t).references idx)
    (last : (w.slots idx).refCount = 1)
    : Step w
        (w.act t (.dropping idx) idx
          { w.slots idx with refCount := wrappingSub (w.slots idx).refCount 1 }
          (.released t idx))
  | drop (t : T) (idx : Nat) (holds : w.role t = .dropping idx)
    : Step w
        (w.act t (.emptied idx) idx { w.slots idx with data := none }
          (.dropped t idx (w.slots idx).data))
  | unguard (t : T) (guard : Guard K V) (others : Multiset (Guard K V))
    (idle : w.role t = .none) (member : w.guards = guard ::ₘ others)
    : Step w
        {
          w with
          role := Function.update w.role t (.unguarding guard)
          guards := others
        }
  | clone (t : T) (guard clone : Guard K V) (idle : w.role t = .none)
    (member : guard ∈ w.guards)
    (sameKey : clone.key = guard.key) (samePointee : clone.pointee = guard.pointee)
    (room : (w.slots (KeyData.idx guard.key)).refCount + 1 < 2 ^ 32)
    : Step w
        {
          w with
          slots := Function.update w.slots (KeyData.idx guard.key)
            {
              w.slots (KeyData.idx guard.key) with
              refCount := (w.slots (KeyData.idx guard.key)).refCount + 1
            }
          guards := clone ::ₘ w.guards
        }
  | leak (t : T) (idx : Nat) (holds : (w.role t).vacant idx)
    : Step w
        {
          w with
          role := Function.update w.role t .none
          trace := .leaked t idx :: w.trace
        }
  | note (event : Event T K V) (apart : event.slot = none)
    : Step w { w with trace := event :: w.trace }

end Ownership

end AtomicSlotMap
