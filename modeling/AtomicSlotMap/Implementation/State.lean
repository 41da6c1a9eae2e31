import AtomicSlotMap.Implementation.Words
import AtomicSlotMap.Library.Linearizability

/-! The shared state of the map and the program counters of the calls that run on it.

A call is executed by an *activity* `t : T`. A thread whose insertion closure calls the map
again is several activities, the innermost of which moves, so every interleaving of threads
is an interleaving of activities. Each step of an activity performs at most one atomic
access, together with the local computation up to its next one.

Fields and events marked as ghost are never read by a step of the program.
-/

namespace AtomicSlotMap

/-- An initialised value together with the ghost number of the write that stored it. -/
structure Stored (V : Type) where
  serial : Nat
  value : V
deriving DecidableEq

/-- `Slot<T>`; `data` is `none` while the cell is uninitialised memory. -/
structure Slot (V : Type) where
  data : Option (Stored V)
  nextFree : Nat
  refCount : Nat
  version : Nat

/-- The zeroed slot that `push_zeroed` makes visible. -/
def Slot.zeroed {V : Type} : Slot V := ⟨none, 0, 0, 0⟩

/-- `SlotGuard` or, if `owning`, `OwningSlotGuard`. The pointer to the value is the cell of
the slot of `key`; `pointee` is ghost, what that cell held when the guard was made.
-/
structure Guard (K V : Type) where
  id : Nat
  key : K
  owning : Bool
  pointee : Option (Stored V)
deriving DecidableEq

/-- Whether a guard refers to the slot at `idx`. -/
def Guard.on {K V : Type} [Key K] (idx : Nat) (guard : Guard K V) : Bool :=
  KeyData.idx guard.key == idx

/-- The operations of the map and of its guards. `insert` and `insert_with_key` are
`try_insert_with_key` with a closure that does not fail. Guards are named by their ids.
-/
inductive Op (K : Type)
  | tryInsertWithKey
  | remove (key : K)
  | get (key : K) (owning : Bool)
  | containsKey (key : K)
  | next (currentIdx : Nat)
  | dropGuard (id : Nat)
  | cloneGuard (id : Nat)
  | forgetGuard (id : Nat)
  | derefGuard (id : Nat)
  | lossyLen
  | lossyIsEmpty
  | reserve (additional : Nat)
  | capacity
deriving DecidableEq

/-- Results of the operations. A successful insertion also records what it stored. -/
inductive Res (K V E : Type)
  | inserted (key : K) (stored : Stored V)
  | failed (err : E)
  | removed (contained : Bool)
  | got (guard : Option (Guard K V))
  | contains (present : Bool)
  | next (item : Option (K × Guard K V)) (currentIdx : Nat)
  | done
  | cloned (guard : Guard K V)
  | read (stored : Option (Stored V))
  | len (count : Nat)
  | isEmpty (empty : Bool)
  | capacity (total : Nat)
deriving DecidableEq

-----------------------------------------------------------------------------------------
-- Program counters
-----------------------------------------------------------------------------------------

/-- The callers of `SlotGuard::new` and `OwningSlotGuard::new`: `get`, `get_owning`, and
`LossyIter::next` with the iterator's `current_idx`.
-/
inductive Getter
  | get (owning : Bool)
  | next (currentIdx : Nat)

/-- What the caller of `push_free_index` does once it returns. -/
inductive AfterPush (K E : Type)
  | failed (err : E)
  | removed (key : K)
  | unguarded
  | missed (getter : Getter)

/-- What the caller of `ensure_chunk_exists` does once it returns. -/
inductive AfterEnsure
  | pushed (idx : Nat)
  | reserving (chunk maxChunk : Nat)

/-- Where an activity stands: the atomic access it performs next, with its locals. The
`seen` counts are ghost, the number of `free_head` updates when the word was loaded.
-/
inductive Pc (K V E : Type)
  | idle
  | iterating (currentIdx : Nat)
  | ret (res : Res K V E)
  | unwinding
  -- AtomicVec::wait_for_chunk and Slot::debug_assert_exclusively_owned, then `next`
  | waitForChunk (idx : Nat) (next : Pc K V E)
  | assertRefCount (idx : Nat) (next : Pc K V E)
  | assertVersion (idx : Nat) (next : Pc K V E)
  -- AtomicSlotMap::pop_free_index
  | popLoad
  | popNext (old seen : Nat)
  | popCas (old next seen : Nat)
  -- AtomicSlotMap::try_insert_with_key
  | insertVersion (idx : Nat)
  | pushZeroed
  | closure (idx version : Nat)
  | insertWrite (idx version : Nat) (value : V)
  | insertRefCount (idx version : Nat) (stored : Stored V)
  | insertPublish (idx version : Nat) (stored : Stored V)
  | insertCount (key : K) (stored : Stored V)
  -- AtomicVec::ensure_chunk_exists
  | ensureLoad (chunk : Nat) (after : AfterEnsure)
  | ensureAlloc (chunk : Nat) (after : AfterEnsure)
  | ensureCas (chunk : Nat) (new : Option Nat) (after : AfterEnsure)
  | ensureDealloc (new : Option Nat) (after : AfterEnsure)
  -- AtomicSlotMap::push_free_index
  | pushLoad (idx : Nat) (after : AfterPush K E)
  | pushStore (idx old : Nat) (after : AfterPush K E)
  | pushCas (idx old : Nat) (after : AfterPush K E)
  -- Slot::drop_inner_value, then push_free_index
  | dropValue (idx : Nat) (after : AfterPush K E)
  -- AtomicSlotMap::remove
  | removeLen (key : K)
  | removeVersion (key : K)
  | removeCas (key : K) (current : Nat)
  | removeDec (key : K)
  | removeCount (key : K)
  -- SlotGuard::new with Slot::acquire_guard
  | getLen (key : K) (getter : Getter)
  | acquireLoad (key : K) (getter : Getter)
  | acquireCas (key : K) (getter : Getter) (refcount : Nat)
  | acquireVersion (key : K) (getter : Getter)
  | acquireDec (key : K) (getter : Getter)
  -- AtomicSlotMap::contains_key
  | containsLen (key : K)
  | containsVersion (key : K)
  -- LossyIter::next
  | nextLen (currentIdx : Nat)
  | nextGet (idx : Nat)
  | nextVersion (idx : Nat)
  -- guard drop and OwningSlotGuard::clone
  | unguardDec (guard : Guard K V)
  | cloneInc (guard : Guard K V)
  -- lossy_len, lossy_is_empty, capacity
  | lenLoad
  | isEmptyLoad
  | capacityLoad (chunk total : Nat)
  -- AtomicSlotMap::reserve and AtomicVec::reserve
  | reserveLen (additional : Nat)
  | reserveSlots (total : Nat)
  | vecReserve (additional : Nat)

/-- The choices that are not the program's: which call to make, what user code does, how
the allocator answers, and whether a `compare_exchange_weak` fails spuriously.
-/
inductive Choice (K V E : Type)
  | go
  | spurious
  | closureOk (value : V)
  | closureErr (err : E)
  | panic
  | allocNull
  | layoutOverflow
  | call (op : Op K)
  | iterate
  | endIterate

-----------------------------------------------------------------------------------------
-- Ghost records
-----------------------------------------------------------------------------------------

/-- What happens to slots, the counter and the chunks, in the order it happens. -/
inductive Event (T K V : Type)
  | pushed (actor : T) (idx : Nat)
  | popped (actor : T) (idx : Nat)
  | recycled (actor : T) (idx : Nat)
  | wrote (actor : T) (idx : Nat) (stored : Stored V)
  | armed (actor : T) (idx : Nat)
  | published (actor : T) (key : K) (stored : Stored V)
  | retired (actor : T) (key : K)
  | gaveUp (actor : T) (idx : Nat)
  | released (actor : T) (idx : Nat)
  | dropped (actor : T) (idx : Nat) (data : Option (Stored V))
  | leaked (actor : T) (idx : Nat)
  | counted (actor : T) (key : K)
  | discounted (actor : T) (key : K)
  | allocated (actor : T) (chunk buffer elements : Nat)
  | installed (actor : T) (chunk : Nat) (buffer : Option Nat)
  | deallocated (actor : T) (buffer : Option Nat)
deriving DecidableEq

/-- Calls, the instants at which they take effect, and returns. -/
abbrev HistoryEvent (K V E : Type) := Library.Record (Op K) (Res K V E)

-----------------------------------------------------------------------------------------
-- The whole state
-----------------------------------------------------------------------------------------

/-- The map, the activities on it and the guards its users hold. -/
structure Sys (T K V E : Type) where
  /-- The elements of the vector by index; memory of unallocated chunks is zeroed. -/
  slots : Nat → Slot V
  /-- The chunk pointers, by buffer number, `none` for null. -/
  chunks : Nat → Option Nat
  len : Nat
  freeHead : Nat
  numElems : Nat
  pc : T → Pc K V E
  guards : List (Guard K V)
  /-- Ghost: guards passed to `mem::forget`. -/
  forgotten : List (Guard K V)
  /-- Ghost: successful updates of `free_head`. -/
  updates : Nat
  /-- Buffers handed out by the allocator. -/
  buffers : Nat
  /-- Guards made so far. -/
  guardIds : Nat
  /-- Ghost: the trace, latest event first. -/
  trace : List (Event T K V)
  /-- Ghost: the number and operation of the call each activity executes. -/
  current : T → Option (Nat × Op K)
  /-- Ghost: calls made so far. -/
  calls : Nat
  /-- Ghost: the history, earliest event first. -/
  history : List (HistoryEvent K V E)

/-- `AtomicSlotMap::with_key`: the empty map, with no activity on it. -/
def Sys.withKey (T K V E : Type) : Sys T K V E where
  slots := fun _ => Slot.zeroed
  chunks := fun _ => none
  len := 0
  freeHead := packFreeHead 0 SENTINEL
  numElems := 0
  pc := fun _ => .idle
  guards := []
  forgotten := []
  updates := 0
  buffers := 0
  guardIds := 0
  trace := []
  current := fun _ => none
  calls := 0
  history := []

end AtomicSlotMap
