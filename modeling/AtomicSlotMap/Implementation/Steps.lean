import Mathlib.Data.Fintype.Basic
import AtomicSlotMap.Implementation.Vec

/-! The steps of the program. Each source function contributes the steps that stand at its
program counters; `step` dispatches on the program counter of the scheduled activity.

`dbg` tells whether the build has `debug_assertions`; without them the assertions are not
compiled in and `usize` additions wrap.
-/

namespace AtomicSlotMap

variable {T K V E : Type} [Key K]

/-- Where a caller of `SlotGuard::new` goes on after `None`. -/
def Getter.missed : Getter → Pc K V E
  | .get _ => .ret (.got none)
  | .next currentIdx => .nextLen currentIdx

/-- Where a caller of `SlotGuard::new` goes on after `Some(guard)`. -/
def Getter.acquired (key : K) (guard : Guard K V) : Getter → Res K V E
  | .get _ => .got (some guard)
  | .next currentIdx => .next (some (key, guard)) currentIdx

/-- Whether the acquired guard owns an `Arc` of the map. -/
def Getter.owning : Getter → Bool
  | .get owning => owning
  | .next _ => false

/-- Where a caller of `push_free_index` goes on. -/
def AfterPush.resume : AfterPush K E → Pc K V E
  | .failed err => .ret (.failed err)
  | .removed key => .removeCount key
  | .unguarded => .ret .done
  | .missed getter => getter.missed

/-- Where a caller of `ensure_chunk_exists` goes on: `push_zeroed` returns its index, whose
version is taken to be zero, and `reserve` goes to the next chunk.
-/
def AfterEnsure.resume : AfterEnsure → Pc K V E
  | .pushed idx => .closure idx (0 ||| 1)
  | .reserving chunk maxChunk =>
      if chunk < maxChunk then .ensureLoad (chunk + 1) (.reserving (chunk + 1) maxChunk)
      else .ret .done

/-- `debug_assert_exclusively_owned`, then `next`. -/
def Pc.exclusivelyOwned (dbg : Bool) (idx : Nat) (next : Pc K V E) : Pc K V E :=
  if dbg then .assertRefCount idx (.assertVersion idx next) else next

/-- `push_free_index(idx)`, then `after`. -/
def Pc.pushFreeIndex (dbg : Bool) (idx : Nat) (after : AfterPush K E) : Pc K V E :=
  .waitForChunk idx (.exclusivelyOwned dbg idx (.pushLoad idx after))

/-- The loop head of `pop_free_index` with a freshly read head word. -/
def Pc.popLoop (head updates : Nat) : Pc K V E :=
  if (unpackFreeHead head).2 = SENTINEL then .pushZeroed
  else .waitForChunk (unpackFreeHead head).2 (.popNext head updates)

/-- The slot an activity holds exclusively, lost if it unwinds. -/
def Pc.holds : Pc K V E → Option Nat
  | .waitForChunk _ next | .assertRefCount _ next | .assertVersion _ next => next.holds
  | .insertVersion idx | .closure idx _ | .insertWrite idx _ _ | .insertRefCount idx _ _
  | .insertPublish idx _ _ => some idx
  | .ensureLoad _ (.pushed idx) | .ensureAlloc _ (.pushed idx)
  | .ensureCas _ _ (.pushed idx) | .ensureDealloc _ (.pushed idx) => some idx
  | .pushLoad idx _ | .pushStore idx _ _ | .pushCas idx _ _ | .dropValue idx _ => some idx
  | _ => none

/-- The guard an activity borrows, which cannot be dropped or forgotten meanwhile. -/
def Pc.borrows : Pc K V E → Option Nat
  | .waitForChunk _ next | .assertRefCount _ next | .assertVersion _ next => next.borrows
  | .cloneInc guard => some guard.id
  | _ => none

namespace Sys

section

variable [DecidableEq T]

def goto (s : Sys T K V E) (t : T) (pc : Pc K V E) : Sys T K V E :=
  { s with pc := Function.update s.pc t pc }

def setSlot (s : Sys T K V E) (idx : Nat) (slot : Slot V) : Sys T K V E :=
  { s with slots := Function.update s.slots idx slot }

def setChunk (s : Sys T K V E) (chunk : Nat) (buffer : Option Nat) : Sys T K V E :=
  { s with chunks := Function.update s.chunks chunk buffer }

/-- A successful exchange of `free_head`. -/
def setFreeHead (s : Sys T K V E) (word : Nat) : Sys T K V E :=
  { s with freeHead := word, updates := s.updates + 1 }

def setNumElems (s : Sys T K V E) (count : Nat) : Sys T K V E :=
  { s with numElems := count }

def addGuard (s : Sys T K V E) (guard : Guard K V) : Sys T K V E :=
  { s with guards := guard :: s.guards, guardIds := s.guardIds + 1 }

def emit (s : Sys T K V E) (event : Event T K V) : Sys T K V E :=
  { s with trace := event :: s.trace }

/-- The call of an activity takes effect with this result. -/
def answer (s : Sys T K V E) (t : T) (res : Res K V E) : Sys T K V E :=
  match s.current t with
  | some (id, op) => { s with history := s.history ++ [.lin id op res] }
  | none => s

/-- An activity starts a call. -/
def begin (s : Sys T K V E) (t : T) (op : Op K) : Sys T K V E :=
  {
    s with
    current := Function.update s.current t (some (s.calls, op)),
    calls := s.calls + 1,
    history := s.history ++ [.call s.calls op]
  }

/-- The call of an activity ends. -/
def finish (s : Sys T K V E) (t : T) (event : Nat → HistoryEvent K V E) : Sys T K V E :=
  match s.current t with
  | some (id, _) =>
      {
        s with
        current := Function.update s.current t none,
        history := s.history ++ [event id]
      }
  | none => s

/-- A panic leaves the running call; a slot it holds is recorded as lost. -/
def unwind (s : Sys T K V E) (t : T) : Sys T K V E :=
  match (s.pc t).holds with
  | some idx => (s.emit (.leaked t idx)).goto t .unwinding
  | none => s.goto t .unwinding

-----------------------------------------------------------------------------------------
-- slot.rs and guard.rs
-----------------------------------------------------------------------------------------

/-- `get` answers `None` here; `LossyIter::next` goes on. -/
def miss (s : Sys T K V E) (t : T) : Getter → Sys T K V E
  | .get _ => s.answer t (.got none)
  | .next _ => s

/-- The loop of `acquire_guard` with a freshly read reference count. -/
def acquireLoop (s : Sys T K V E) (t : T) (key : K) (getter : Getter) (refcount : Nat)
    : Sys T K V E :=
  if MAX_REFCOUNT < refcount then s.unwind t
  else if refcount = 0 then (s.miss t getter).goto t getter.missed
  else s.goto t (.acquireCas key getter refcount)

/-- `acquire_guard` after its increment: the guard, or the way back. -/
def acquireCheck (s : Sys T K V E) (t : T) (key : K) (getter : Getter) : Sys T K V E :=
  let slot := s.slots (KeyData.idx key)
  if slot.version = KeyData.version key then
    let guard : Guard K V := ⟨s.guardIds, key, getter.owning, slot.data⟩
    ((s.addGuard guard).answer t (getter.acquired key guard)).goto t
      (.ret (getter.acquired key guard))
  else (s.miss t getter).goto t (.acquireDec key getter)

/-- `dec_ref_count`, then one of two ways on. -/
def decRefCount (s : Sys T K V E) (t : T) (idx : Nat) (needsDrop otherwise : Pc K V E)
    : Sys T K V E :=
  let slot := s.slots idx
  let lowered := s.setSlot idx { slot with refCount := wrappingSub slot.refCount 1 }
  if slot.refCount = 1 then (lowered.emit (.released t idx)).goto t needsDrop
  else (lowered.emit (.gaveUp t idx)).goto t otherwise

/-- `inc_ref_count_for_clone` and the clone. A refused clone leaves the count raised. -/
def cloneGuard (s : Sys T K V E) (t : T) (guard : Guard K V) : Sys T K V E :=
  let idx := KeyData.idx guard.key
  let slot := s.slots idx
  let raised := s.setSlot idx { slot with refCount := wrappingAdd slot.refCount 1 }
  if slot.refCount ≤ MAX_REFCOUNT then
    let clone : Guard K V := ⟨s.guardIds, guard.key, true, guard.pointee⟩
    ((raised.addGuard clone).answer t (.cloned clone)).goto t (.ret (.cloned clone))
  else raised.unwind t

/-- `drop_inner_value`: whatever the cell holds is dropped and the cell is uninitialised. -/
def dropInnerValue (s : Sys T K V E) (t : T) (idx : Nat) : Sys T K V E :=
  let slot := s.slots idx
  (s.setSlot idx { slot with data := none }).emit (.dropped t idx slot.data)

-----------------------------------------------------------------------------------------
-- lib.rs
-----------------------------------------------------------------------------------------

/-- The loop head of `remove` with a freshly read version. -/
def removeLoop (s : Sys T K V E) (t : T) (key : K) (current : Nat) : Sys T K V E :=
  if current ≠ KeyData.version key then
    (s.answer t (.removed false)).goto t (.ret (.removed false))
  else s.goto t (.removeCas key current)

/-- The version exchange of `remove`. -/
def removeExchange (s : Sys T K V E) (t : T) (key : K) (current : Nat) : Sys T K V E :=
  let idx := KeyData.idx key
  let slot := s.slots idx
  if slot.version = current then
    (((s.setSlot idx { slot with version := wrappingAdd current 1 }).emit
      (.retired t key)).answer t (.removed true)).goto t (.removeDec key)
  else s.removeLoop t key slot.version

/-- `pop_free_index` exchanging the head for its successor. -/
def popExchange (dbg : Bool) (s : Sys T K V E) (t : T) (old next : Nat) : Sys T K V E :=
  let (tag, idx) := unpackFreeHead old
  ((s.setFreeHead (packFreeHead (wrappingAdd tag 1) next)).emit (.popped t idx)).goto t
    (.exclusivelyOwned dbg idx (.waitForChunk idx (.insertVersion idx)))

/-- `push_free_index` exchanging the head for the pushed index. -/
def pushExchange (s : Sys T K V E) (t : T) (idx old : Nat) (after : AfterPush K E)
    : Sys T K V E :=
  ((s.setFreeHead (packFreeHead (wrappingAdd (unpackFreeHead old).1 1) idx)).emit
    (.recycled t idx)).goto t after.resume

/-- The value is written to the reserved slot. -/
def writeValue (s : Sys T K V E) (t : T) (idx version : Nat) (value : V) : Sys T K V E :=
  let stored : Stored V := ⟨s.trace.length, value⟩
  ((s.setSlot idx { s.slots idx with data := some stored }).emit (.wrote t idx stored)).goto
    t (.insertRefCount idx version stored)

/-- The map's own reference is stored. -/
def storeRefCount (s : Sys T K V E) (t : T) (idx version : Nat) (stored : Stored V)
    : Sys T K V E :=
  ((s.setSlot idx { s.slots idx with refCount := 1 }).emit (.armed t idx)).goto t
    (.insertPublish idx version stored)

/-- The occupied version is stored, which makes the key reachable. -/
def publish (s : Sys T K V E) (t : T) (idx version : Nat) (stored : Stored V)
    : Sys T K V E :=
  let key : K := KeyData.new idx version
  (((s.setSlot idx { s.slots idx with version := version }).emit
    (.published t key stored)).answer t (.inserted key stored)).goto t
    (.insertCount key stored)

-----------------------------------------------------------------------------------------
-- vec.rs
-----------------------------------------------------------------------------------------

/-- `push_zeroed` claims the next index. -/
def pushZeroed (s : Sys T K V E) (t : T) : Sys T K V E :=
  ({ s with len := wrappingAdd s.len 1 }.emit (.pushed t s.len)).goto t
    (.ensureLoad (chunkOf s.len) (.pushed s.len))

/-- `ensure_chunk_exists` installs its buffer, or deallocates it if it came late. -/
def installChunk (s : Sys T K V E) (t : T) (chunk : Nat) (new : Option Nat)
    (after : AfterEnsure)
    : Sys T K V E :=
  if s.chunks chunk = none then
    ((s.setChunk chunk new).emit (.installed t chunk new)).goto t after.resume
  else s.goto t (.ensureDealloc new after)

/-- `AtomicVec::reserve` once it has read the length. -/
def vecReserve (dbg : Bool) (s : Sys T K V E) (t : T) (additional : Nat) : Sys T K V E :=
  match addUsize dbg s.len additional with
  | none => s.unwind t
  | some targetCap =>
      if targetCap = 0 then s.goto t (.ret .done)
      else if 2 ^ 32 ≤ targetCap - 1 then s.unwind t
      else s.goto t (.ensureLoad 0 (.reserving 0 (chunkOf (targetCap - 1))))

end

-----------------------------------------------------------------------------------------
-- Calls
-----------------------------------------------------------------------------------------

/-- The guard with an id, and the others. -/
def takeGuard? (s : Sys T K V E) (id : Nat) : Option (Guard K V × List (Guard K V)) :=
  (s.guards.find? (·.id == id)).map fun guard => (guard, s.guards.eraseP (·.id == id))

variable [DecidableEq T] [Fintype T]

/-- An activity at rest makes a call. A guard is only dropped or forgotten while it is not
borrowed, and only owning guards can be cloned.
-/
def call (s : Sys T K V E) (t : T) (op : Op K) : Option (Sys T K V E) :=
  match op with
  | .tryInsertWithKey => some ((s.begin t op).goto t .popLoad)
  | .remove key => some ((s.begin t op).goto t (.removeLen key))
  | .get key owning => some ((s.begin t op).goto t (.getLen key (.get owning)))
  | .containsKey key => some ((s.begin t op).goto t (.containsLen key))
  | .next currentIdx => some ((s.begin t op).goto t (.nextLen currentIdx))
  | .dropGuard id =>
      if ∃ other, (s.pc other).borrows = some id then none
      else (s.takeGuard? id).map fun (guard, others) =>
        (({ s with guards := others }.begin t op).answer t .done).goto t
          (.waitForChunk (KeyData.idx guard.key) (.unguardDec guard))
  | .cloneGuard id =>
      (s.guards.find? (fun guard => guard.id == id && guard.owning)).map fun guard =>
        (s.begin t op).goto t (.waitForChunk (KeyData.idx guard.key) (.cloneInc guard))
  | .forgetGuard id =>
      if ∃ other, (s.pc other).borrows = some id then none
      else (s.takeGuard? id).map fun (guard, others) =>
        (({ s with guards := others, forgotten := guard :: s.forgotten }.begin t op).answer
          t .done).goto t (.ret .done)
  | .derefGuard id =>
      (s.guards.find? (·.id == id)).map fun guard =>
        let res := .read (s.slots (KeyData.idx guard.key)).data
        ((s.begin t op).answer t res).goto t (.ret res)
  | .lossyLen => some ((s.begin t op).goto t .lenLoad)
  | .lossyIsEmpty => some ((s.begin t op).goto t .isEmptyLoad)
  | .reserve additional =>
      some (((s.begin t op).answer t .done).goto t (.reserveLen additional))
  | .capacity => some ((s.begin t op).goto t (.capacityLoad 0 0))

end Sys

/-- `Slot::drop`: the cell whose content is dropped, if any. `needsDrop` is
`mem::needs_drop` of the value type.
-/
def Slot.drop (needsDrop : Bool) (slot : Slot V) : Option (Option (Stored V)) :=
  if needsDrop && slot.version % 2 == 1 then some slot.data else none

/-- The elements that `AtomicVec::drop` drops, by index. A chunk can be missing if a thread
panicked when allocating it.
-/
def Sys.dropElements (needsDrop : Bool) (s : Sys T K V E) : List (Option (Stored V)) :=
  (List.range s.len).filterMap fun idx =>
    if (s.chunks (chunkOf idx)).isSome then (s.slots idx).drop needsDrop else none

/-- The buffers that `AtomicVec::drop` deallocates, each with the number of elements of its
layout.
-/
def Sys.dropChunks (s : Sys T K V E) : List (Nat × Nat) :=
  (List.range CHUNKS).filterMap fun chunk => (s.chunks chunk).map (·, chunkCapacity chunk)

/-- Whether an operation is `LossyIter::next` on an iterator with this `current_idx`. -/
def Op.isNextAt (currentIdx : Nat) : Op K → Bool
  | .next idx => idx == currentIdx
  | _ => false

/-- Whether an operation is `LossyIter::next`. -/
def Op.isNext : Op K → Bool
  | .next _ => true
  | _ => false

/-- Where an activity rests after a call: an iterator keeps its `current_idx`. -/
def Res.rest : Res K V E → Pc K V E
  | .next _ currentIdx => .iterating currentIdx
  | _ => .idle

-----------------------------------------------------------------------------------------
-- The step function
-----------------------------------------------------------------------------------------

/-- A step that leaves nothing to choose. -/
def Choice.onGo {α : Type} (choice : Choice K V E) (next : α) : Option α :=
  match choice with
  | .go => some next
  | _ => none

/-- A weak exchange, which may fail although the word is the expected one. -/
def Choice.onWeak {α : Type} (choice : Choice K V E) (expected : Bool) (done retry : α)
    : Option α :=
  match choice with
  | .go => some (if expected then done else retry)
  | .spurious => some retry
  | _ => none

open Sys in
/-- One step of activity `t`; `none` if it cannot take this step. -/
def step [DecidableEq T] [Fintype T] (dbg : Bool) (s : Sys T K V E) (t : T)
    (choice : Choice K V E)
    : Option (Sys T K V E) :=
  match s.pc t with
  | .idle =>
      match choice with
      | .call op => if op.isNext then none else s.call t op
      | .iterate => some (s.goto t (.iterating 0))
      | _ => none
  | .iterating currentIdx =>
      match choice with
      | .call op => if op.isNextAt currentIdx then s.call t op else none
      | .endIterate => some (s.goto t .idle)
      | _ => none
  | .ret res => choice.onGo ((s.finish t (.ret · res)).goto t res.rest)
  | .unwinding => choice.onGo ((s.finish t .unwound).goto t .idle)
  -- wait_for_chunk spins while the pointer is null
  | .waitForChunk idx next =>
      choice.onGo (if (s.chunks (chunkOf idx)).isSome then s.goto t next else s)
  | .assertRefCount idx next =>
      choice.onGo (if (s.slots idx).refCount = 0 then s.goto t next else s.unwind t)
  | .assertVersion idx next =>
      choice.onGo (if (s.slots idx).version % 2 = 0 then s.goto t next else s.unwind t)
  -- pop_free_index
  | .popLoad => choice.onGo (s.goto t (.popLoop s.freeHead s.updates))
  | .popNext old seen =>
      choice.onGo (s.goto t (.popCas old (s.slots (unpackFreeHead old).2).nextFree seen))
  | .popCas old next _ =>
      choice.onWeak (s.freeHead == old) (s.popExchange dbg t old next)
        (s.goto t (.popLoop s.freeHead s.updates))
  -- try_insert_with_key
  | .insertVersion idx =>
      choice.onGo (s.goto t (.closure idx ((s.slots idx).version ||| 1)))
  | .pushZeroed => choice.onGo (s.pushZeroed t)
  | .closure idx version =>
      match choice with
      | .closureOk value =>
          some (s.goto t
            (.waitForChunk idx (.exclusivelyOwned dbg idx (.insertWrite idx version value))))
      | .closureErr err =>
          some ((s.answer t (.failed err)).goto t (.pushFreeIndex dbg idx (.failed err)))
      | .panic => some (s.unwind t)
      | _ => none
  | .insertWrite idx version value => choice.onGo (s.writeValue t idx version value)
  | .insertRefCount idx version stored =>
      choice.onGo (s.storeRefCount t idx version stored)
  | .insertPublish idx version stored => choice.onGo (s.publish t idx version stored)
  | .insertCount key stored =>
      choice.onGo (((s.setNumElems (wrappingAdd s.numElems 1)).emit (.counted t key)).goto t
        (.ret (.inserted key stored)))
  -- ensure_chunk_exists
  | .ensureLoad chunk after =>
      choice.onGo (s.goto t
        (if (s.chunks chunk).isSome then after.resume else .ensureAlloc chunk after))
  | .ensureAlloc chunk after =>
      match choice with
      | .go =>
          some (({ s with buffers := s.buffers + 1 }.emit
            (.allocated t chunk s.buffers (chunkCapacity chunk))).goto t
              (.ensureCas chunk (some s.buffers) after))
      | .allocNull => some (s.goto t (.ensureCas chunk none after))
      | .layoutOverflow => some (s.unwind t)
      | _ => none
  | .ensureCas chunk new after => choice.onGo (s.installChunk t chunk new after)
  | .ensureDealloc new after =>
      choice.onGo ((s.emit (.deallocated t new)).goto t after.resume)
  -- push_free_index
  | .pushLoad idx after => choice.onGo (s.goto t (.pushStore idx s.freeHead after))
  | .pushStore idx old after =>
      choice.onGo ((s.setSlot idx
        { s.slots idx with nextFree := (unpackFreeHead old).2 }).goto t
        (.pushCas idx old after))
  | .pushCas idx old after =>
      choice.onWeak (s.freeHead == old) (s.pushExchange t idx old after)
        (s.goto t (.pushStore idx s.freeHead after))
  -- drop_inner_value runs the destructor of the value
  | .dropValue idx after =>
      match choice with
      | .go => some ((s.dropInnerValue t idx).goto t (.pushFreeIndex dbg idx after))
      | .panic => some ((s.dropInnerValue t idx).unwind t)
      | _ => none
  -- remove
  | .removeLen key =>
      choice.onGo
        (if s.len ≤ KeyData.idx key then
          (s.answer t (.removed false)).goto t (.ret (.removed false))
        else s.goto t (.waitForChunk (KeyData.idx key) (.removeVersion key)))
  | .removeVersion key =>
      choice.onGo (s.removeLoop t key (s.slots (KeyData.idx key)).version)
  | .removeCas key current => choice.onGo (s.removeExchange t key current)
  | .removeDec key =>
      choice.onGo (s.decRefCount t (KeyData.idx key)
        (.dropValue (KeyData.idx key) (.removed key)) (.removeCount key))
  | .removeCount key =>
      choice.onGo (((s.setNumElems (wrappingSub s.numElems 1)).emit
        (.discounted t key)).goto t (.ret (.removed true)))
  -- SlotGuard::new
  | .getLen key getter =>
      choice.onGo
        (if s.len ≤ KeyData.idx key then (s.miss t getter).goto t getter.missed
        else s.goto t (.waitForChunk (KeyData.idx key) (.acquireLoad key getter)))
  | .acquireLoad key getter =>
      choice.onGo (s.acquireLoop t key getter (s.slots (KeyData.idx key)).refCount)
  | .acquireCas key getter refcount =>
      let slot := s.slots (KeyData.idx key)
      choice.onWeak (slot.refCount == refcount)
        ((s.setSlot (KeyData.idx key) { slot with refCount := refcount + 1 }).goto t
          (.acquireVersion key getter))
        (s.acquireLoop t key getter slot.refCount)
  | .acquireVersion key getter => choice.onGo (s.acquireCheck t key getter)
  | .acquireDec key getter =>
      choice.onGo (s.decRefCount t (KeyData.idx key)
        (.dropValue (KeyData.idx key) (.missed getter)) getter.missed)
  -- contains_key
  | .containsLen key =>
      choice.onGo
        (if s.len ≤ KeyData.idx key then
          (s.answer t (.contains false)).goto t (.ret (.contains false))
        else s.goto t (.waitForChunk (KeyData.idx key) (.containsVersion key)))
  | .containsVersion key =>
      let present := (s.slots (KeyData.idx key)).version == KeyData.version key
      choice.onGo ((s.answer t (.contains present)).goto t (.ret (.contains present)))
  -- LossyIter::next
  | .nextLen currentIdx =>
      choice.onGo
        (if s.len ≤ currentIdx then
          (s.answer t (.next none currentIdx)).goto t (.ret (.next none currentIdx))
        else s.goto t (.nextGet currentIdx))
  | .nextGet idx =>
      choice.onGo (s.goto t
        (if s.len ≤ idx then .nextLen (idx + 1) else .waitForChunk idx (.nextVersion idx)))
  | .nextVersion idx =>
      let version := (s.slots idx).version
      choice.onGo (s.goto t
        (if version % 2 ≠ 0 then .getLen (KeyData.new idx version) (.next (idx + 1))
        else .nextLen (idx + 1)))
  -- guards
  | .unguardDec guard =>
      let idx := KeyData.idx guard.key
      choice.onGo (s.decRefCount t idx (.waitForChunk idx (.dropValue idx .unguarded))
        (.ret .done))
  | .cloneInc guard => choice.onGo (s.cloneGuard t guard)
  -- lossy_len, lossy_is_empty, capacity
  | .lenLoad =>
      choice.onGo ((s.answer t (.len s.numElems)).goto t (.ret (.len s.numElems)))
  | .isEmptyLoad =>
      choice.onGo ((s.answer t (.isEmpty (s.numElems == 0))).goto t
        (.ret (.isEmpty (s.numElems == 0))))
  | .capacityLoad chunk total =>
      choice.onGo
        (if chunk < CHUNKS ∧ (s.chunks chunk).isSome then
          s.goto t (.capacityLoad (chunk + 1) (total + chunkCapacity chunk))
        else (s.answer t (.capacity total)).goto t (.ret (.capacity total)))
  -- reserve
  | .reserveLen additional =>
      choice.onGo
        (match addUsize dbg s.numElems additional with
        | none => s.unwind t
        | some total => s.goto t (.reserveSlots total))
  | .reserveSlots total => choice.onGo (s.goto t (.vecReserve (total - s.len)))
  | .vecReserve additional => choice.onGo (s.vecReserve dbg t additional)

end AtomicSlotMap
