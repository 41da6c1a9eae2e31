import AtomicSlotMap.Implementation.Runs
import AtomicSlotMap.Library.HappensBefore

/-! The memory orderings of the program. For each step the atomic accesses with the orderings that
the source gives them, and the accesses to the memory of slots, in program order. The words have the
values of the interleaving; only the synchronisation that the orderings provide is counted.
-/

namespace AtomicSlotMap

open Library

variable {T K V E : Type} [Key K]

/-- The atomic words. Users who pass a guard on, and who drop it once nobody uses it any more,
synchronise among themselves: its `lent` word is released by who makes it and acquired by who uses
it, its `returned` word is released by who has used it and acquired by who drops it.
-/
inductive Word
  | freeHead
  | numElems
  | len
  | chunk (chunk : Nat)
  | nextFree (idx : Nat)
  | refCount (idx : Nat)
  | version (idx : Nat)
  | lent (id : Nat)
  | returned (id : Nat)
deriving DecidableEq

/-- Accesses to the memory of slots, by the buffer that holds the slot. A buffer is zeroed before
its pointer is published, and the words of its slots are accessed atomically. Values are read, and
they are written or dropped.
-/
inductive MemoryAccess
  | zeroed (buffer : Nat)
  | word (buffer : Option Nat) (idx : Nat)
  | read (buffer : Option Nat) (idx : Nat)
  | write (buffer : Option Nat) (idx : Nat)
deriving DecidableEq

def MemoryAccess.buffer : MemoryAccess → Option Nat
  | .zeroed buffer => some buffer
  | .word buffer _ | .read buffer _ | .write buffer _ => buffer

/-- Two accesses in conflict would be a data race if neither happened before the other: what is
zeroed with every access to the same buffer, and what writes to a cell with what reads or writes the
same cell.
-/
def MemoryAccess.Conflicts : MemoryAccess → MemoryAccess → Prop
  | .zeroed buffer, other => other.buffer = some buffer
  | other, .zeroed buffer => other.buffer = some buffer
  | .write _ idx, .read _ idx' | .write _ idx, .write _ idx' | .read _ idx, .write _ idx' =>
      idx = idx'
  | _, _ => False

namespace Sys

/-- The buffer of a slot. -/
def bufferOf (s : Sys T K V E) (idx : Nat) : Option Nat := s.chunks (chunkOf idx)

/-- A word of a slot is accessed. -/
def touch (s : Sys T K V E) (idx : Nat) : MemoryEffect Word MemoryAccess :=
  .access (.word (s.bufferOf idx) idx)

/-- `dec_ref_count`. -/
def decEffects (s : Sys T K V E) (idx : Nat) : List (MemoryEffect Word MemoryAccess) :=
  if (s.slots idx).refCount = 1 then [s.touch idx, .update (.refCount idx) .release, .fence]
  else [s.touch idx, .update (.refCount idx) .release]

/-- What user code does with its guards at a call. -/
def callEffects (s : Sys T K V E) : Op K → List (MemoryEffect Word MemoryAccess)
  | .dropGuard id => [.load (.lent id) .acquire, .load (.returned id) .acquire]
  | .cloneGuard id => [.load (.lent id) .acquire]
  | .derefGuard id =>
      match s.guards.find? (·.id == id) with
      | some guard =>
          [
            .load (.lent id) .acquire,
            .access (.read (s.bufferOf (KeyData.idx guard.key)) (KeyData.idx guard.key)),
            .update (.returned id) .release
          ]
      | none => []
  | _ => []

/-- The effects of a step of activity `t`. -/
def memoryEffects (s : Sys T K V E) (t : T) (choice : Choice K V E)
    : List (MemoryEffect Word MemoryAccess) :=
  match s.pc t with
  | .idle | .iterating _ =>
      match choice with
      | .call op => s.callEffects op
      | _ => []
  | .ret _ | .unwinding | .closure _ _ | .ensureDealloc _ _ => []
  | .waitForChunk idx _ => [.load (.chunk (chunkOf idx)) .acquire]
  | .assertRefCount idx _ => [s.touch idx, .load (.refCount idx) .acquire]
  | .assertVersion idx _ => [s.touch idx, .load (.version idx) .acquire]
  -- pop_free_index
  | .popLoad => [.load .freeHead .acquire]
  | .popNext old _ =>
      [s.touch (unpackFreeHead old).2, .load (.nextFree (unpackFreeHead old).2) .acquire]
  | .popCas old _ _ =>
      match choice with
      | .spurious => [.load .freeHead .acquire]
      | _ => [.exchange (s.freeHead == old) .freeHead .acqRel .acquire]
  -- try_insert_with_key
  | .insertVersion idx => [s.touch idx, .load (.version idx) .acquire]
  | .pushZeroed => [.update .len .relaxed]
  | .insertWrite idx _ _ => [.access (.write (s.bufferOf idx) idx)]
  | .insertRefCount idx _ _ => [s.touch idx, .store (.refCount idx) .release]
  | .insertPublish idx _ _ => [s.touch idx, .store (.version idx) .release]
  | .insertCount _ _ | .removeCount _ => [.update .numElems .relaxed]
  -- ensure_chunk_exists
  | .ensureLoad chunk _ => [.load (.chunk chunk) .acquire]
  | .ensureAlloc _ _ =>
      match choice with
      | .go => [.access (.zeroed s.buffers)]
      | _ => []
  | .ensureCas chunk _ _ =>
      [.exchange (s.chunks chunk).isNone (.chunk chunk) .release .acquire]
  -- push_free_index
  | .pushLoad _ _ => [.load .freeHead .relaxed]
  | .pushStore idx _ _ => [s.touch idx, .store (.nextFree idx) .release]
  | .pushCas _ old _ =>
      match choice with
      | .spurious => [.load .freeHead .relaxed]
      | _ => [.exchange (s.freeHead == old) .freeHead .release .relaxed]
  | .dropValue idx _ => [.access (.write (s.bufferOf idx) idx)]
  -- remove
  | .removeLen _ | .getLen _ _ | .containsLen _ | .nextLen _ | .nextGet _ | .reserveSlots _ =>
      [.load .len .acquire]
  | .removeVersion key | .containsVersion key =>
      [s.touch (KeyData.idx key), .load (.version (KeyData.idx key)) .acquire]
  | .removeCas key current =>
      let idx := KeyData.idx key
      [s.touch idx, .exchange ((s.slots idx).version == current) (.version idx) .release .acquire]
  | .removeDec key | .acquireDec key _ => s.decEffects (KeyData.idx key)
  -- acquire_guard
  | .acquireLoad key _ =>
      [s.touch (KeyData.idx key), .load (.refCount (KeyData.idx key)) .relaxed]
  | .acquireCas key _ refcount =>
      let idx := KeyData.idx key
      match choice with
      | .spurious => [s.touch idx, .load (.refCount idx) .relaxed]
      | _ =>
          [
            s.touch idx,
            .exchange ((s.slots idx).refCount == refcount) (.refCount idx) .acquire .relaxed
          ]
  | .acquireVersion key _ =>
      let idx := KeyData.idx key
      if (s.slots idx).version = KeyData.version key then
        [s.touch idx, .load (.version idx) .acquire, .store (.lent s.guardIds) .release]
      else [s.touch idx, .load (.version idx) .acquire]
  | .nextVersion idx => [s.touch idx, .load (.version idx) .acquire]
  -- guards
  | .unguardDec guard => s.decEffects (KeyData.idx guard.key)
  | .cloneInc guard =>
      let idx := KeyData.idx guard.key
      if (s.slots idx).refCount ≤ MAX_REFCOUNT then
        [
          s.touch idx, .update (.refCount idx) .relaxed, .update (.returned guard.id) .release,
          .store (.lent s.guardIds) .release
        ]
      else
        [s.touch idx, .update (.refCount idx) .relaxed, .update (.returned guard.id) .release]
  -- lossy_len, lossy_is_empty, capacity, reserve
  | .lenLoad | .isEmptyLoad | .reserveLen _ => [.load .numElems .relaxed]
  | .capacityLoad chunk _ => [.load (.chunk chunk) .relaxed]
  | .vecReserve _ => [.load .len .relaxed]

variable [DecidableEq T] [Fintype T] {dbg : Bool} {s s' : Sys T K V E} {t : T}

/-- A step within the limits of the words, and what it makes known. -/
def ClockedNext (dbg : Bool) (before after : Sys T K V E × Clocks T Word MemoryAccess) : Prop :=
  ∃ t choice,
    before.1.Within t
    ∧ step dbg before.1 t choice = some after.1
    ∧ after.2 = before.2.run t (before.1.memoryEffects t choice)

/-- The states reachable from the empty map, with what is known in them. -/
def Clocked (dbg : Bool) (s : Sys T K V E) (c : Clocks T Word MemoryAccess) : Prop :=
  Relation.ReflTransGen (ClockedNext dbg) (.withKey T K V E, .start) (s, c)

theorem Clocked.reachable {c : Clocks T Word MemoryAccess} (clocked : Clocked dbg s c)
    : Reachable dbg s :=
  Relation.ReflTransGen.lift Prod.fst
    (fun _ _ ⟨t, choice, within, found, _⟩ => ⟨t, choice, within, found⟩) _ _ clocked

/-- In every run something is known, by induction on the run. -/
theorem Reachable.clocked (reachable : Reachable dbg s) : ∃ c, Clocked dbg s c := by
  induction reachable with
  | refl => exact ⟨.start, .refl⟩
  | tail _ last ih =>
      obtain ⟨c, clocked⟩ := ih
      obtain ⟨t, choice, within, found⟩ := last
      exact ⟨_, clocked.tail ⟨t, choice, within, found, rfl⟩⟩

/-- A run that a schedule prescribes, with what is known in it. -/
def runClocked (dbg : Bool) (s : Sys T K V E) (c : Clocks T Word MemoryAccess)
    : List (T × Choice K V E) → Option (Sys T K V E × Clocks T Word MemoryAccess)
  | [] => some (s, c)
  | (t, choice) :: schedule =>
      if s.within? t then
        (step dbg s t choice).bind fun s' =>
          runClocked dbg s' (c.run t (s.memoryEffects t choice)) schedule
      else none

/-- A schedule runs to a state with what is known in it, by induction on the schedule. -/
theorem Clocked.of_run {c c' : Clocks T Word MemoryAccess} {schedule : List (T × Choice K V E)}
    (clocked : Clocked dbg s c) (found : runClocked dbg s c schedule = some (s', c'))
    : Clocked dbg s' c' := by
  induction schedule generalizing s c with
  | nil =>
      cases found
      exact clocked
  | cons head schedule ih =>
      obtain ⟨t, choice⟩ := head
      simp only [runClocked, Option.ite_none_right_eq_some] at found
      obtain ⟨checked, found⟩ := found
      obtain ⟨middle, first, rest⟩ := Option.bind_eq_some_iff.mp found
      exact ih (clocked.tail ⟨t, choice, within_of_within? checked, first, rfl⟩) rest

end Sys

end AtomicSlotMap
