import AtomicSlotMap.Implementation.Steps

/-! What one step can do, said once. `step_moves` inverts the step function; everything that
follows splits on the moves and does not unfold it again.
-/

namespace AtomicSlotMap

variable {T K V E : Type} [Key K]

/-- Moves that change one program counter and nothing else. -/
inductive Pc.Goes (dbg : Bool) (s : Sys T K V E) : Pc K V E → Pc K V E → Prop
  | iterate : Goes dbg s .idle (.iterating 0)
  | endIterate (currentIdx : Nat) : Goes dbg s (.iterating currentIdx) .idle
  | arrived (idx : Nat) (next : Pc K V E) (present : (s.chunks (chunkOf idx)).isSome)
    : Goes dbg s (.waitForChunk idx next) next
  | unreferenced (idx : Nat) (next : Pc K V E) (zero : (s.slots idx).refCount = 0)
    : Goes dbg s (.assertRefCount idx next) next
  | unoccupied (idx : Nat) (next : Pc K V E) (even : (s.slots idx).version % 2 = 0)
    : Goes dbg s (.assertVersion idx next) next
  | popLoad : Goes dbg s .popLoad (.popLoop s.freeHead s.updates)
  | popNext (old seen : Nat)
    : Goes dbg s (.popNext old seen)
        (.popCas old (s.slots (unpackFreeHead old).2).nextFree seen)
  | popAgain (old next seen : Nat)
    : Goes dbg s (.popCas old next seen) (.popLoop s.freeHead s.updates)
  | insertVersion (idx : Nat)
    : Goes dbg s (.insertVersion idx) (.closure idx ((s.slots idx).version ||| 1))
  | closureOk (idx version : Nat) (value : V)
    : Goes dbg s (.closure idx version)
        (.waitForChunk idx (.exclusivelyOwned dbg idx (.insertWrite idx version value)))
  | ensurePresent (chunk : Nat) (after : AfterEnsure) (present : (s.chunks chunk).isSome)
    : Goes dbg s (.ensureLoad chunk after) after.resume
  | ensureAbsent (chunk : Nat) (after : AfterEnsure) (absent : s.chunks chunk = none)
    : Goes dbg s (.ensureLoad chunk after) (.ensureAlloc chunk after)
  | allocNull (chunk : Nat) (after : AfterEnsure)
    : Goes dbg s (.ensureAlloc chunk after) (.ensureCas chunk none after)
  | installedElsewhere (chunk : Nat) (new : Option Nat) (after : AfterEnsure)
    (present : s.chunks chunk ≠ none)
    : Goes dbg s (.ensureCas chunk new after) (.ensureDealloc new after)
  | pushLoad (idx : Nat) (after : AfterPush K E)
    : Goes dbg s (.pushLoad idx after) (.pushStore idx s.freeHead after)
  | pushAgain (idx old : Nat) (after : AfterPush K E)
    : Goes dbg s (.pushCas idx old after) (.pushStore idx s.freeHead after)
  | removeFound (key : K) (within : KeyData.idx key < s.len)
    : Goes dbg s (.removeLen key) (.waitForChunk (KeyData.idx key) (.removeVersion key))
  | removeCurrent (key : K) (same : (s.slots (KeyData.idx key)).version = KeyData.version key)
    : Goes dbg s (.removeVersion key) (.removeCas key (KeyData.version key))
  | removeAgain (key : K) (current : Nat)
    (same : (s.slots (KeyData.idx key)).version = KeyData.version key)
    (apart : (s.slots (KeyData.idx key)).version ≠ current)
    : Goes dbg s (.removeCas key current) (.removeCas key (KeyData.version key))
  | getFound (key : K) (getter : Getter) (within : KeyData.idx key < s.len)
    : Goes dbg s (.getLen key getter)
        (.waitForChunk (KeyData.idx key) (.acquireLoad key getter))
  | getMissed (key : K) (currentIdx : Nat) (beyond : s.len ≤ KeyData.idx key)
    : Goes dbg s (.getLen key (.next currentIdx)) (.nextLen currentIdx)
  | acquireLoad (key : K) (getter : Getter)
    (positive : 0 < (s.slots (KeyData.idx key)).refCount)
    (bounded : (s.slots (KeyData.idx key)).refCount ≤ MAX_REFCOUNT)
    : Goes dbg s (.acquireLoad key getter)
        (.acquireCas key getter (s.slots (KeyData.idx key)).refCount)
  | acquireAgain (key : K) (getter : Getter) (refcount : Nat)
    (positive : 0 < (s.slots (KeyData.idx key)).refCount)
    (bounded : (s.slots (KeyData.idx key)).refCount ≤ MAX_REFCOUNT)
    : Goes dbg s (.acquireCas key getter refcount)
        (.acquireCas key getter (s.slots (KeyData.idx key)).refCount)
  | acquireLoadZero (key : K) (currentIdx : Nat)
    (zero : (s.slots (KeyData.idx key)).refCount = 0)
    : Goes dbg s (.acquireLoad key (.next currentIdx)) (.nextLen currentIdx)
  | acquireAgainZero (key : K) (currentIdx refcount : Nat)
    (zero : (s.slots (KeyData.idx key)).refCount = 0)
    : Goes dbg s (.acquireCas key (.next currentIdx) refcount) (.nextLen currentIdx)
  | acquireStale (key : K) (currentIdx : Nat)
    (stale : (s.slots (KeyData.idx key)).version ≠ KeyData.version key)
    : Goes dbg s (.acquireVersion key (.next currentIdx)) (.acquireDec key (.next currentIdx))
  | containsFound (key : K) (within : KeyData.idx key < s.len)
    : Goes dbg s (.containsLen key) (.waitForChunk (KeyData.idx key) (.containsVersion key))
  | nextWithin (currentIdx : Nat) (within : currentIdx < s.len)
    : Goes dbg s (.nextLen currentIdx) (.nextGet currentIdx)
  | nextFound (idx : Nat) (within : idx < s.len)
    : Goes dbg s (.nextGet idx) (.waitForChunk idx (.nextVersion idx))
  | nextGone (idx : Nat) (beyond : s.len ≤ idx)
    : Goes dbg s (.nextGet idx) (.nextLen (idx + 1))
  | nextOccupied (idx : Nat) (odd : (s.slots idx).version % 2 = 1)
    : Goes dbg s (.nextVersion idx)
        (.getLen (KeyData.new idx (s.slots idx).version) (.next (idx + 1)))
  | nextUnoccupied (idx : Nat) (even : (s.slots idx).version % 2 = 0)
    : Goes dbg s (.nextVersion idx) (.nextLen (idx + 1))
  | capacityNext (chunk total : Nat) (bounded : chunk < CHUNKS)
    (present : (s.chunks chunk).isSome)
    : Goes dbg s (.capacityLoad chunk total)
        (.capacityLoad (chunk + 1) (total + chunkCapacity chunk))
  | reserveLen (additional total : Nat)
    (sum : addUsize dbg s.numElems additional = some total)
    : Goes dbg s (.reserveLen additional) (.reserveSlots total)
  | reserveSlots (total : Nat) : Goes dbg s (.reserveSlots total) (.vecReserve (total - s.len))
  | vecReserveNothing (additional : Nat) (sum : addUsize dbg s.len additional = some 0)
    : Goes dbg s (.vecReserve additional) (.ret .done)
  | vecReserve (additional targetCap : Nat)
    (sum : addUsize dbg s.len additional = some targetCap) (positive : targetCap ≠ 0)
    (small : targetCap - 1 < 2 ^ 32)
    : Goes dbg s (.vecReserve additional)
        (.ensureLoad 0 (.reserving 0 (chunkOf (targetCap - 1))))

/-- Moves at which a call takes effect without changing the map. -/
inductive Pc.Answers (dbg : Bool) (s : Sys T K V E)
    : Pc K V E → Res K V E → Pc K V E → Prop
  | closureErr (idx version : Nat) (err : E)
    : Answers dbg s (.closure idx version) (.failed err)
        (.pushFreeIndex dbg idx (.failed err))
  | removeBeyond (key : K) (beyond : s.len ≤ KeyData.idx key)
    : Answers dbg s (.removeLen key) (.removed false) (.ret (.removed false))
  | removeStale (key : K) (stale : (s.slots (KeyData.idx key)).version ≠ KeyData.version key)
    : Answers dbg s (.removeVersion key) (.removed false) (.ret (.removed false))
  | removeAgainStale (key : K) (current : Nat)
    (stale : (s.slots (KeyData.idx key)).version ≠ KeyData.version key)
    : Answers dbg s (.removeCas key current) (.removed false) (.ret (.removed false))
  | getBeyond (key : K) (owning : Bool) (beyond : s.len ≤ KeyData.idx key)
    : Answers dbg s (.getLen key (.get owning)) (.got none) (.ret (.got none))
  | acquireLoadZero (key : K) (owning : Bool)
    (zero : (s.slots (KeyData.idx key)).refCount = 0)
    : Answers dbg s (.acquireLoad key (.get owning)) (.got none) (.ret (.got none))
  | acquireAgainZero (key : K) (owning : Bool) (refcount : Nat)
    (zero : (s.slots (KeyData.idx key)).refCount = 0)
    : Answers dbg s (.acquireCas key (.get owning) refcount) (.got none) (.ret (.got none))
  | acquireStale (key : K) (owning : Bool)
    (stale : (s.slots (KeyData.idx key)).version ≠ KeyData.version key)
    : Answers dbg s (.acquireVersion key (.get owning)) (.got none)
        (.acquireDec key (.get owning))
  | containsBeyond (key : K) (beyond : s.len ≤ KeyData.idx key)
    : Answers dbg s (.containsLen key) (.contains false) (.ret (.contains false))
  | contains (key : K) (present : Bool)
    (same : present = ((s.slots (KeyData.idx key)).version == KeyData.version key))
    : Answers dbg s (.containsVersion key) (.contains present) (.ret (.contains present))
  | nextDone (currentIdx : Nat) (beyond : s.len ≤ currentIdx)
    : Answers dbg s (.nextLen currentIdx) (.next none currentIdx)
        (.ret (.next none currentIdx))
  | lossyLen : Answers dbg s .lenLoad (.len s.numElems) (.ret (.len s.numElems))
  | lossyIsEmpty
    : Answers dbg s .isEmptyLoad (.isEmpty (s.numElems == 0))
        (.ret (.isEmpty (s.numElems == 0)))
  | capacity (chunk total : Nat) (last : chunk < CHUNKS → s.chunks chunk = none)
    : Answers dbg s (.capacityLoad chunk total) (.capacity total) (.ret (.capacity total))

/-- Program counters from which a call may panic while the map stays as it is. -/
inductive Pc.Fails (dbg : Bool) (s : Sys T K V E) : Pc K V E → Prop
  | referenced (idx : Nat) (next : Pc K V E) (positive : (s.slots idx).refCount ≠ 0)
    : Fails dbg s (.assertRefCount idx next)
  | occupied (idx : Nat) (next : Pc K V E) (odd : (s.slots idx).version % 2 = 1)
    : Fails dbg s (.assertVersion idx next)
  | closure (idx version : Nat) : Fails dbg s (.closure idx version)
  | layoutOverflow (chunk : Nat) (after : AfterEnsure)
    : Fails dbg s (.ensureAlloc chunk after)
  | acquireLoad (key : K) (getter : Getter)
    (full : MAX_REFCOUNT < (s.slots (KeyData.idx key)).refCount)
    : Fails dbg s (.acquireLoad key getter)
  | acquireAgain (key : K) (getter : Getter) (refcount : Nat)
    (full : MAX_REFCOUNT < (s.slots (KeyData.idx key)).refCount)
    : Fails dbg s (.acquireCas key getter refcount)
  | reserveLen (additional : Nat) (overflow : addUsize dbg s.numElems additional = none)
    : Fails dbg s (.reserveLen additional)
  | vecReserve (additional : Nat)
    (overflow
      : addUsize dbg s.len additional = none
        ∨ ∃ targetCap,
            addUsize dbg s.len additional = some targetCap ∧ 2 ^ 32 ≤ targetCap - 1)
    : Fails dbg s (.vecReserve additional)

/-- Program counters at which `dec_ref_count` runs, and the ways on from there. -/
inductive Pc.Decrements : Pc K V E → Nat → Pc K V E → Pc K V E → Prop
  | remove (key : K)
    : Decrements (.removeDec key) (KeyData.idx key)
        (.dropValue (KeyData.idx key) (.removed key)) (.removeCount key)
  | acquire (key : K) (getter : Getter)
    : Decrements (.acquireDec key getter) (KeyData.idx key)
        (.dropValue (KeyData.idx key) (.missed getter)) getter.missed
  | unguard (guard : Guard K V)
    : Decrements (.unguardDec guard) (KeyData.idx guard.key)
        (.waitForChunk (KeyData.idx guard.key)
          (.dropValue (KeyData.idx guard.key) .unguarded))
        (.ret .done)

/-- The calls that an activity at rest may make. -/
def Pc.Calls (pc : Pc K V E) (op : Op K) : Prop :=
  (pc = .idle ∧ op.isNext = false)
  ∨ ∃ currentIdx, pc = .iterating currentIdx ∧ op = .next currentIdx

/-- Where a call starts, for the calls that take effect later. -/
inductive Op.Starts (s : Sys T K V E) : Op K → Pc K V E → Prop
  | tryInsertWithKey : Starts s .tryInsertWithKey .popLoad
  | remove (key : K) : Starts s (.remove key) (.removeLen key)
  | get (key : K) (owning : Bool) : Starts s (.get key owning) (.getLen key (.get owning))
  | containsKey (key : K) : Starts s (.containsKey key) (.containsLen key)
  | next (currentIdx : Nat) : Starts s (.next currentIdx) (.nextLen currentIdx)
  | cloneGuard (id : Nat) (guard : Guard K V) (member : guard ∈ s.guards)
    (named : guard.id = id)
    : Starts s (.cloneGuard id)
        (.waitForChunk (KeyData.idx guard.key) (.cloneInc guard))
  | lossyLen : Starts s .lossyLen .lenLoad
  | lossyIsEmpty : Starts s .lossyIsEmpty .isEmptyLoad
  | capacity : Starts s .capacity (.capacityLoad 0 0)

namespace Sys

variable [DecidableEq T]

/-- What a step of activity `t` may lead to. -/
inductive Moves (dbg : Bool) (s : Sys T K V E) (t : T) : Sys T K V E → Prop
  | stay (idx : Nat) (next : Pc K V E) (about : s.pc t = .waitForChunk idx next)
    (missing : s.chunks (chunkOf idx) = none)
    : Moves dbg s t s
  | go (pc : Pc K V E) (goes : (s.pc t).Goes dbg s pc) : Moves dbg s t (s.goto t pc)
  | answered (res : Res K V E) (pc : Pc K V E) (answers : (s.pc t).Answers dbg s res pc)
    : Moves dbg s t ((s.answer t res).goto t pc)
  | failed (fails : (s.pc t).Fails dbg s) : Moves dbg s t (s.unwind t)
  | popped (old next seen : Nat) (about : s.pc t = .popCas old next seen)
    (same : s.freeHead = old)
    : Moves dbg s t (s.popExchange dbg t old next)
  | pushed (about : s.pc t = .pushZeroed) : Moves dbg s t (s.pushZeroed t)
  | wrote (idx version : Nat) (value : V) (about : s.pc t = .insertWrite idx version value)
    : Moves dbg s t (s.writeValue t idx version value)
  | armed (idx version : Nat) (stored : Stored V)
    (about : s.pc t = .insertRefCount idx version stored)
    : Moves dbg s t (s.storeRefCount t idx version stored)
  | published (idx version : Nat) (stored : Stored V)
    (about : s.pc t = .insertPublish idx version stored)
    : Moves dbg s t (s.publish t idx version stored)
  | counted (key : K) (stored : Stored V) (about : s.pc t = .insertCount key stored)
    (count : Nat) (sum : count = wrappingAdd s.numElems 1)
    : Moves dbg s t
        (((s.setNumElems count).emit (.counted t key)).goto t (.ret (.inserted key stored)))
  | allocated (chunk : Nat) (after : AfterEnsure) (about : s.pc t = .ensureAlloc chunk after)
    : Moves dbg s t
        (({ s with buffers := s.buffers + 1 }.emit
          (.allocated t chunk s.buffers (chunkCapacity chunk))).goto t
            (.ensureCas chunk (some s.buffers) after))
  | installed (chunk : Nat) (new : Option Nat) (after : AfterEnsure)
    (about : s.pc t = .ensureCas chunk new after) (absent : s.chunks chunk = none)
    : Moves dbg s t
        (((s.setChunk chunk new).emit (.installed t chunk new)).goto t after.resume)
  | deallocated (new : Option Nat) (after : AfterEnsure)
    (about : s.pc t = .ensureDealloc new after)
    : Moves dbg s t ((s.emit (.deallocated t new)).goto t after.resume)
  | linked (idx old : Nat) (after : AfterPush K E) (about : s.pc t = .pushStore idx old after)
    : Moves dbg s t
        ((s.setSlot idx { s.slots idx with nextFree := (unpackFreeHead old).2 }).goto t
          (.pushCas idx old after))
  | recycled (idx old : Nat) (after : AfterPush K E) (about : s.pc t = .pushCas idx old after)
    (same : s.freeHead = old)
    : Moves dbg s t (s.pushExchange t idx old after)
  | dropped (idx : Nat) (after : AfterPush K E) (about : s.pc t = .dropValue idx after)
    : Moves dbg s t ((s.dropInnerValue t idx).goto t (.pushFreeIndex dbg idx after))
  | dropPanicked (idx : Nat) (after : AfterPush K E) (about : s.pc t = .dropValue idx after)
    : Moves dbg s t ((s.dropInnerValue t idx).unwind t)
  | retired (key : K) (current : Nat) (about : s.pc t = .removeCas key current)
    (same : (s.slots (KeyData.idx key)).version = current)
    : Moves dbg s t (s.removeExchange t key current)
  | decremented (idx : Nat) (needsDrop otherwise : Pc K V E)
    (decrements : (s.pc t).Decrements idx needsDrop otherwise)
    : Moves dbg s t (s.decRefCount t idx needsDrop otherwise)
  | discounted (key : K) (about : s.pc t = .removeCount key)
    (count : Nat) (difference : count = wrappingSub s.numElems 1)
    : Moves dbg s t
        (((s.setNumElems count).emit (.discounted t key)).goto t (.ret (.removed true)))
  | acquired (key : K) (getter : Getter) (refcount : Nat)
    (about : s.pc t = .acquireCas key getter refcount)
    (same : (s.slots (KeyData.idx key)).refCount = refcount)
    : Moves dbg s t
        ((s.setSlot (KeyData.idx key)
          { s.slots (KeyData.idx key) with refCount := refcount + 1 }).goto t
          (.acquireVersion key getter))
  | guarded (key : K) (getter : Getter) (about : s.pc t = .acquireVersion key getter)
    (same : (s.slots (KeyData.idx key)).version = KeyData.version key)
    : Moves dbg s t (s.acquireCheck t key getter)
  | cloned (guard : Guard K V) (about : s.pc t = .cloneInc guard)
    : Moves dbg s t (s.cloneGuard t guard)
  | began (op : Op K) (pc : Pc K V E) (calls : (s.pc t).Calls op) (starts : op.Starts s pc)
    : Moves dbg s t ((s.begin t op).goto t pc)
  | beganReserve (additional : Nat) (calls : (s.pc t).Calls (.reserve additional : Op K))
    : Moves dbg s t
        (((s.begin t (.reserve additional)).answer t .done).goto t (.reserveLen additional))
  | beganDeref (id : Nat) (guard : Guard K V) (calls : (s.pc t).Calls (.derefGuard id : Op K))
    (found : s.guards.find? (·.id == id) = some guard)
    : Moves dbg s t
        (((s.begin t (.derefGuard id)).answer t
          (.read (s.slots (KeyData.idx guard.key)).data)).goto t
          (.ret (.read (s.slots (KeyData.idx guard.key)).data)))
  | beganDrop (id : Nat) (guard : Guard K V) (calls : (s.pc t).Calls (.dropGuard id : Op K))
    (found : s.guards.find? (·.id == id) = some guard)
    (unborrowed : ∀ other, (s.pc other).borrows ≠ some id)
    : Moves dbg s t
        ((({ s with guards := s.guards.eraseP (·.id == id) }.begin t (.dropGuard id)).answer t
          .done).goto t (.waitForChunk (KeyData.idx guard.key) (.unguardDec guard)))
  | beganForget (id : Nat) (guard : Guard K V)
    (calls : (s.pc t).Calls (.forgetGuard id : Op K))
    (found : s.guards.find? (·.id == id) = some guard)
    (unborrowed : ∀ other, (s.pc other).borrows ≠ some id)
    : Moves dbg s t
        ((({
            s with
            guards := s.guards.eraseP (·.id == id)
            forgotten := guard :: s.forgotten
          }.begin t (.forgetGuard id)).answer t .done).goto t (.ret .done))
  | returned (res : Res K V E) (about : s.pc t = .ret res)
    : Moves dbg s t ((s.finish t (.ret · res)).goto t res.rest)
  | unwound (about : s.pc t = .unwinding) : Moves dbg s t ((s.finish t .unwound).goto t .idle)

/-- The map, its memory and its guards are the same; program counters, the trace and the records of
calls may differ.
-/
structure Alike (s s' : Sys T K V E) : Prop where
  slots : s'.slots = s.slots
  chunks : s'.chunks = s.chunks
  len : s'.len = s.len
  freeHead : s'.freeHead = s.freeHead
  numElems : s'.numElems = s.numElems
  guards : s'.guards = s.guards
  forgotten : s'.forgotten = s.forgotten
  updates : s'.updates = s.updates
  buffers : s'.buffers = s.buffers
  guardIds : s'.guardIds = s.guardIds

section

variable (s : Sys T K V E) (t : T)

omit [Key K] [DecidableEq T] in
/-- An answer only adds to the history. -/
theorem answer_eq (res : Res K V E)
    : s.answer t res = { s with history := (s.answer t res).history } := by
  rw [answer]
  split <;> rfl

omit [Key K] in
/-- The end of a call only changes the records of calls. -/
theorem finish_eq (event : Nat → HistoryEvent K V E)
    : s.finish t event
      = {
          s with
          current := (s.finish t event).current
          history := (s.finish t event).history
        } := by
  rw [finish]
  split <;> rfl

omit [Key K] in
/-- Unwinding only changes the program counter and the trace. -/
theorem unwind_eq
    : s.unwind t = { s.goto t .unwinding with trace := (s.unwind t).trace } := by
  rw [unwind]
  split <;> rfl

omit [Key K] [DecidableEq T] in
theorem alike_answer (res : Res K V E) : s.Alike (s.answer t res) := by
  rw [answer_eq]
  constructor <;> rfl

omit [Key K] in
theorem alike_finish (event : Nat → HistoryEvent K V E) : s.Alike (s.finish t event) := by
  rw [finish_eq]
  constructor <;> rfl

omit [Key K] in
theorem alike_unwind : s.Alike (s.unwind t) := by
  rw [unwind_eq]
  constructor <;> rfl

omit [Key K] in
/-- Going somewhere afterwards makes no difference. -/
theorem Alike.goto {s s' : Sys T K V E} (alike : s.Alike s') (pc : Pc K V E)
    : s.Alike (s'.goto t pc) := by
  obtain ⟨slots, chunks, len, freeHead, numElems, guards, forgotten, updates, buffers, guardIds⟩ :=
    alike
  constructor <;> assumption

omit [Key K] in
theorem alike_answer_goto (res : Res K V E) (pc : Pc K V E)
    : s.Alike ((s.answer t res).goto t pc) :=
  (alike_answer s t res).goto t pc

omit [Key K] in
theorem alike_finish_goto (event : Nat → HistoryEvent K V E) (pc : Pc K V E)
    : s.Alike ((s.finish t event).goto t pc) :=
  (alike_finish s t event).goto t pc

omit [Key K] [DecidableEq T] in
@[simp] theorem trace_answer (res : Res K V E) : (s.answer t res).trace = s.trace := by
  rw [answer_eq]

omit [Key K] in
@[simp] theorem trace_finish (event : Nat → HistoryEvent K V E)
    : (s.finish t event).trace = s.trace := by
  rw [finish_eq]

omit [Key K] [DecidableEq T] in
@[simp] theorem current_answer (res : Res K V E) : (s.answer t res).current = s.current := by
  rw [answer_eq]

omit [Key K] in
@[simp] theorem current_unwind : (s.unwind t).current = s.current := by
  rw [unwind_eq]
  rfl

omit [Key K] [DecidableEq T] in
@[simp] theorem calls_answer (res : Res K V E) : (s.answer t res).calls = s.calls := by
  rw [answer_eq]

omit [Key K] in
@[simp] theorem calls_unwind : (s.unwind t).calls = s.calls := by
  rw [unwind_eq]
  rfl

omit [Key K] in
@[simp] theorem history_unwind : (s.unwind t).history = s.history := by
  rw [unwind_eq]
  rfl

end

section

variable (s : Sys T K V E) (t : T)

omit [Key K] in
@[simp] theorem pc_goto_self (pc : Pc K V E) : (s.goto t pc).pc t = pc := by simp [goto]

omit [Key K] in
@[simp] theorem pc_goto_of_ne {other : T} (apart : other ≠ t) (pc : Pc K V E)
    : (s.goto t pc).pc other = s.pc other := by
  simp [goto, apart]

omit [Key K] [DecidableEq T] in
@[simp] theorem pc_answer (res : Res K V E) : (s.answer t res).pc = s.pc := by
  rw [answer]
  split <;> rfl

omit [Key K] in
@[simp] theorem pc_finish (event : Nat → HistoryEvent K V E) : (s.finish t event).pc = s.pc := by
  rw [finish]
  split <;> rfl

omit [Key K] in
theorem pc_answer_goto (res : Res K V E) (pc : Pc K V E)
    : ((s.answer t res).goto t pc).pc = Function.update s.pc t pc := by
  rw [goto, pc_answer]

omit [Key K] in
theorem pc_finish_goto (event : Nat → HistoryEvent K V E) (pc : Pc K V E)
    : ((s.finish t event).goto t pc).pc = Function.update s.pc t pc := by
  rw [goto, pc_finish]

omit [Key K] in
@[simp] theorem pc_unwind_self : (s.unwind t).pc t = .unwinding := by
  rw [unwind]
  split <;> simp

omit [Key K] in
theorem pc_of_goto {staged final : Sys T K V E} {t : T} {pc : Pc K V E}
    (reached : final = staged.goto t pc)
    : final.pc t = pc := by
  rw [reached, pc_goto_self]

omit [Key K] in
theorem pc_of_unwind {staged final : Sys T K V E} {t : T} (reached : final = staged.unwind t)
    : final.pc t = .unwinding := by
  rw [reached, pc_unwind_self]

omit [Key K] in
@[simp] theorem pc_unwind_of_ne {other : T} (apart : other ≠ t)
    : (s.unwind t).pc other = s.pc other := by
  rw [unwind]
  split <;> simp [apart, emit]

end

-----------------------------------------------------------------------------------------
-- Inversion of the step function
-----------------------------------------------------------------------------------------

end Sys

omit [Key K] in
/-- A step without a choice leads where it says. -/
theorem Choice.eq_of_onGo {α : Type} {choice : Choice K V E} {next final : α}
    (found : choice.onGo next = some final)
    : final = next := by
  cases choice <;> simp_all [Choice.onGo]

omit [Key K] in
/-- A weak exchange succeeds only on the expected word, and may always fail. -/
theorem Choice.eq_of_onWeak {α : Type} {choice : Choice K V E} {expected : Bool}
    {done retry final : α} (found : choice.onWeak expected done retry = some final)
    : (expected = true ∧ final = done) ∨ final = retry := by
  cases choice <;> cases expected <;> simp_all [Choice.onWeak]

namespace Sys

variable [DecidableEq T] {dbg : Bool} {s s' : Sys T K V E} {t : T} {choice : Choice K V E}

/-- The loop of `acquire_guard` panics, answers `None` or goes on to its exchange. -/
theorem Moves.acquireLoop {key : K} {getter : Getter}
    (reads : s.pc t = .acquireLoad key getter
      ∨ ∃ refcount, s.pc t = .acquireCas key getter refcount)
    : s.Moves dbg t (s.acquireLoop t key getter (s.slots (KeyData.idx key)).refCount) := by
  rw [Sys.acquireLoop]
  by_cases full : MAX_REFCOUNT < (s.slots (KeyData.idx key)).refCount
  · rw [if_pos full]
    rcases reads with about | ⟨refcount, about⟩
    · exact .failed (about ▸ .acquireLoad key getter full)
    · exact .failed (about ▸ .acquireAgain key getter refcount full)
  · rw [if_neg full]
    have bounded := Nat.le_of_not_lt full
    by_cases zero : (s.slots (KeyData.idx key)).refCount = 0
    · rw [if_pos zero]
      rcases reads with about | ⟨refcount, about⟩
      · cases getter with
        | get owning => exact .answered _ _ (about ▸ .acquireLoadZero key owning zero)
        | next currentIdx => exact .go _ (about ▸ .acquireLoadZero key currentIdx zero)
      · cases getter with
        | get owning => exact .answered _ _ (about ▸ .acquireAgainZero key owning refcount zero)
        | next currentIdx =>
            exact .go _ (about ▸ .acquireAgainZero key currentIdx refcount zero)
    · rw [if_neg zero]
      have positive := Nat.pos_of_ne_zero zero
      rcases reads with about | ⟨refcount, about⟩
      · exact .go _ (about ▸ .acquireLoad key getter positive bounded)
      · exact .go _ (about ▸ .acquireAgain key getter refcount positive bounded)

/-- A call made at rest starts at its first access. -/
theorem Moves.call {op : Op K} [Fintype T] (calls : (s.pc t).Calls op)
    (found : s.call t op = some s')
    : s.Moves dbg t s' := by
  cases op with
  | tryInsertWithKey =>
      cases found
      exact .began _ _ calls .tryInsertWithKey
  | remove key =>
      cases found
      exact .began _ _ calls (.remove key)
  | get key owning =>
      cases found
      exact .began _ _ calls (.get key owning)
  | containsKey key =>
      cases found
      exact .began _ _ calls (.containsKey key)
  | next currentIdx =>
      cases found
      exact .began _ _ calls (.next currentIdx)
  | lossyLen =>
      cases found
      exact .began _ _ calls .lossyLen
  | lossyIsEmpty =>
      cases found
      exact .began _ _ calls .lossyIsEmpty
  | capacity =>
      cases found
      exact .began _ _ calls .capacity
  | reserve additional =>
      cases found
      exact .beganReserve additional calls
  | dropGuard id =>
      rw [Sys.call] at found
      split at found
      · cases found
      · next unborrowed =>
        obtain ⟨⟨guard, others⟩, taken, rfl⟩ := Option.map_eq_some_iff.mp found
        obtain ⟨_, first, same⟩ := Option.map_eq_some_iff.mp taken
        cases same
        exact .beganDrop id guard calls first (fun other same => unborrowed ⟨other, same⟩)
  | forgetGuard id =>
      rw [Sys.call] at found
      split at found
      · cases found
      · next unborrowed =>
        obtain ⟨⟨guard, others⟩, taken, rfl⟩ := Option.map_eq_some_iff.mp found
        obtain ⟨_, first, same⟩ := Option.map_eq_some_iff.mp taken
        cases same
        exact .beganForget id guard calls first (fun other same => unborrowed ⟨other, same⟩)
  | cloneGuard id =>
      obtain ⟨guard, first, rfl⟩ := Option.map_eq_some_iff.mp found
      have named := List.find?_some first
      simp only [Bool.and_eq_true, beq_iff_eq] at named
      exact .began _ _ calls (.cloneGuard id guard (List.mem_of_find?_eq_some first) named.1)
  | derefGuard id =>
      obtain ⟨guard, first, rfl⟩ := Option.map_eq_some_iff.mp found
      exact .beganDeref id guard calls first

/-- An activity that makes a call is at rest. -/
theorem call_of_step [Fintype T] {op : Op K} (found : step dbg s t (.call op) = some s')
    : (s.pc t).Calls op ∧ s.call t op = some s' := by
  cases about : s.pc t with
  | idle =>
      simp only [step, about, Option.ite_none_left_eq_some] at found
      exact ⟨Or.inl ⟨rfl, by simpa using found.1⟩, found.2⟩
  | iterating currentIdx =>
      simp only [step, about, Option.ite_none_right_eq_some] at found
      refine ⟨Or.inr ⟨currentIdx, rfl, ?_⟩, found.2⟩
      cases op <;> simp_all [Op.isNextAt]
  | _ =>
      simp only [step, about] at found
      cases found

/-- The inversion of the step function, by cases on the program counter. -/
theorem step_moves [Fintype T] (found : step dbg s t choice = some s') : s.Moves dbg t s' := by
  cases about : s.pc t with
  | idle =>
      simp only [step, about] at found
      cases choice with
      | call op =>
          simp only [Option.ite_none_left_eq_some] at found
          exact .call (Or.inl ⟨about, by simpa using found.1⟩) found.2
      | iterate =>
          cases found
          exact .go _ (about ▸ .iterate)
      | _ => cases found
  | iterating currentIdx =>
      simp only [step, about] at found
      cases choice with
      | call op =>
          simp only [Option.ite_none_right_eq_some] at found
          refine .call (Or.inr ⟨currentIdx, about, ?_⟩) found.2
          cases op <;> simp_all [Op.isNextAt]
      | endIterate =>
          cases found
          exact .go _ (about ▸ .endIterate currentIdx)
      | _ => cases found
  | ret res =>
      simp only [step, about] at found
      cases Choice.eq_of_onGo found
      exact .returned res about
  | unwinding =>
      simp only [step, about] at found
      cases Choice.eq_of_onGo found
      exact .unwound about
  | waitForChunk idx next =>
      simp only [step, about] at found
      have reached := Choice.eq_of_onGo found
      split at reached
      · next present =>
        subst s'
        exact .go _ (about ▸ .arrived idx next present)
      · next missing =>
        subst s'
        exact .stay idx next about (Option.not_isSome_iff_eq_none.mp missing)
  | assertRefCount idx next =>
      simp only [step, about] at found
      have reached := Choice.eq_of_onGo found
      split at reached
      · next zero =>
        subst s'
        exact .go _ (about ▸ .unreferenced idx next zero)
      · next positive =>
        subst s'
        exact .failed (about ▸ .referenced idx next positive)
  | assertVersion idx next =>
      simp only [step, about] at found
      have reached := Choice.eq_of_onGo found
      split at reached
      · next even =>
        subst s'
        exact .go _ (about ▸ .unoccupied idx next even)
      · next odd =>
        subst s'
        exact .failed (about ▸ .occupied idx next (by omega))
  | popLoad =>
      simp only [step, about] at found
      cases Choice.eq_of_onGo found
      exact .go _ (about ▸ .popLoad)
  | popNext old seen =>
      simp only [step, about] at found
      cases Choice.eq_of_onGo found
      exact .go _ (about ▸ .popNext old seen)
  | popCas old next seen =>
      simp only [step, about] at found
      rcases Choice.eq_of_onWeak found with ⟨same, rfl⟩ | rfl
      · exact .popped old next seen about (by simpa using same)
      · exact .go _ (about ▸ .popAgain old next seen)
  | insertVersion idx =>
      simp only [step, about] at found
      cases Choice.eq_of_onGo found
      exact .go _ (about ▸ .insertVersion idx)
  | pushZeroed =>
      simp only [step, about] at found
      cases Choice.eq_of_onGo found
      exact .pushed about
  | closure idx version =>
      simp only [step, about] at found
      cases choice with
      | closureOk value =>
          cases found
          exact .go _ (about ▸ .closureOk idx version value)
      | closureErr err =>
          cases found
          exact .answered _ _ (about ▸ .closureErr idx version err)
      | panic =>
          cases found
          exact .failed (about ▸ .closure idx version)
      | _ => cases found
  | insertWrite idx version value =>
      simp only [step, about] at found
      cases Choice.eq_of_onGo found
      exact .wrote idx version value about
  | insertRefCount idx version stored =>
      simp only [step, about] at found
      cases Choice.eq_of_onGo found
      exact .armed idx version stored about
  | insertPublish idx version stored =>
      simp only [step, about] at found
      cases Choice.eq_of_onGo found
      exact .published idx version stored about
  | insertCount key stored =>
      simp only [step, about] at found
      cases Choice.eq_of_onGo found
      exact .counted key stored about _ rfl
  | ensureLoad chunk after =>
      simp only [step, about] at found
      have reached := Choice.eq_of_onGo found
      split at reached
      · next present =>
        subst s'
        exact .go _ (about ▸ .ensurePresent chunk after present)
      · next absent =>
        subst s'
        exact .go _ (about ▸ .ensureAbsent chunk after (by simpa using absent))
  | ensureAlloc chunk after =>
      simp only [step, about] at found
      cases choice with
      | go =>
          cases found
          exact .allocated chunk after about
      | allocNull =>
          cases found
          exact .go _ (about ▸ .allocNull chunk after)
      | layoutOverflow =>
          cases found
          exact .failed (about ▸ .layoutOverflow chunk after)
      | _ => cases found
  | ensureCas chunk new after =>
      simp only [step, about] at found
      cases Choice.eq_of_onGo found
      rw [installChunk]
      split
      · next absent => exact .installed chunk new after about absent
      · next present => exact .go _ (about ▸ .installedElsewhere chunk new after present)
  | ensureDealloc new after =>
      simp only [step, about] at found
      cases Choice.eq_of_onGo found
      exact .deallocated new after about
  | pushLoad idx after =>
      simp only [step, about] at found
      cases Choice.eq_of_onGo found
      exact .go _ (about ▸ .pushLoad idx after)
  | pushStore idx old after =>
      simp only [step, about] at found
      cases Choice.eq_of_onGo found
      exact .linked idx old after about
  | pushCas idx old after =>
      simp only [step, about] at found
      rcases Choice.eq_of_onWeak found with ⟨same, rfl⟩ | rfl
      · exact .recycled idx old after about (by simpa using same)
      · exact .go _ (about ▸ .pushAgain idx old after)
  | dropValue idx after =>
      simp only [step, about] at found
      cases choice with
      | go =>
          cases found
          exact .dropped idx after about
      | panic =>
          cases found
          exact .dropPanicked idx after about
      | _ => cases found
  | removeLen key =>
      simp only [step, about] at found
      have reached := Choice.eq_of_onGo found
      split at reached
      · next beyond =>
        subst s'
        exact .answered _ _ (about ▸ .removeBeyond key beyond)
      · next within =>
        subst s'
        exact .go _ (about ▸ .removeFound key (Nat.lt_of_not_le within))
  | removeVersion key =>
      simp only [step, about] at found
      cases Choice.eq_of_onGo found
      rw [removeLoop]
      split
      · next stale => exact .answered _ _ (about ▸ .removeStale key stale)
      · next same =>
        rw [not_not] at same
        exact .go _ (about ▸ same ▸ .removeCurrent key same)
  | removeCas key current =>
      simp only [step, about] at found
      cases Choice.eq_of_onGo found
      by_cases same : (s.slots (KeyData.idx key)).version = current
      · exact .retired key current about same
      · simp only [removeExchange, if_neg same, removeLoop]
        split
        · next stale => exact .answered _ _ (about ▸ .removeAgainStale key current stale)
        · next again =>
          rw [not_not] at again
          rw [again]
          exact .go _ (about ▸ .removeAgain key current again same)
  | removeDec key =>
      simp only [step, about] at found
      cases Choice.eq_of_onGo found
      exact .decremented _ _ _ (about ▸ .remove key)
  | removeCount key =>
      simp only [step, about] at found
      cases Choice.eq_of_onGo found
      exact .discounted key about _ rfl
  | getLen key getter =>
      simp only [step, about] at found
      have reached := Choice.eq_of_onGo found
      split at reached
      · next beyond =>
        subst s'
        cases getter with
        | get owning => exact .answered _ _ (about ▸ .getBeyond key owning beyond)
        | next currentIdx => exact .go _ (about ▸ .getMissed key currentIdx beyond)
      · next within =>
        subst s'
        exact .go _ (about ▸ .getFound key getter (Nat.lt_of_not_le within))
  | acquireLoad key getter =>
      simp only [step, about] at found
      cases Choice.eq_of_onGo found
      exact .acquireLoop (Or.inl about)
  | acquireCas key getter refcount =>
      simp only [step, about] at found
      rcases Choice.eq_of_onWeak found with ⟨same, rfl⟩ | rfl
      · exact .acquired key getter refcount about (by simpa using same)
      · exact .acquireLoop (Or.inr ⟨refcount, about⟩)
  | acquireVersion key getter =>
      simp only [step, about] at found
      cases Choice.eq_of_onGo found
      by_cases same : (s.slots (KeyData.idx key)).version = KeyData.version key
      · exact .guarded key getter about same
      · simp only [acquireCheck, if_neg same]
        cases getter with
        | get owning => exact .answered _ _ (about ▸ .acquireStale key owning same)
        | next currentIdx => exact .go _ (about ▸ .acquireStale key currentIdx same)
  | acquireDec key getter =>
      simp only [step, about] at found
      cases Choice.eq_of_onGo found
      exact .decremented _ _ _ (about ▸ .acquire key getter)
  | containsLen key =>
      simp only [step, about] at found
      have reached := Choice.eq_of_onGo found
      split at reached
      · next beyond =>
        subst s'
        exact .answered _ _ (about ▸ .containsBeyond key beyond)
      · next within =>
        subst s'
        exact .go _ (about ▸ .containsFound key (Nat.lt_of_not_le within))
  | containsVersion key =>
      simp only [step, about] at found
      cases Choice.eq_of_onGo found
      exact .answered _ _ (about ▸ .contains key _ rfl)
  | nextLen currentIdx =>
      simp only [step, about] at found
      have reached := Choice.eq_of_onGo found
      split at reached
      · next beyond =>
        subst s'
        exact .answered _ _ (about ▸ .nextDone currentIdx beyond)
      · next within =>
        subst s'
        exact .go _ (about ▸ .nextWithin currentIdx (Nat.lt_of_not_le within))
  | nextGet idx =>
      simp only [step, about] at found
      have reached := Choice.eq_of_onGo found
      split at reached
      · next beyond =>
        subst s'
        exact .go _ (about ▸ .nextGone idx beyond)
      · next within =>
        subst s'
        exact .go _ (about ▸ .nextFound idx (Nat.lt_of_not_le within))
  | nextVersion idx =>
      simp only [step, about] at found
      have reached := Choice.eq_of_onGo found
      split at reached
      · next odd =>
        subst s'
        exact .go _ (about ▸ .nextOccupied idx (by omega))
      · next even =>
        subst s'
        exact .go _ (about ▸ .nextUnoccupied idx (by omega))
  | unguardDec guard =>
      simp only [step, about] at found
      cases Choice.eq_of_onGo found
      exact .decremented _ _ _ (about ▸ .unguard guard)
  | cloneInc guard =>
      simp only [step, about] at found
      cases Choice.eq_of_onGo found
      exact .cloned guard about
  | lenLoad =>
      simp only [step, about] at found
      cases Choice.eq_of_onGo found
      exact .answered _ _ (about ▸ .lossyLen)
  | isEmptyLoad =>
      simp only [step, about] at found
      cases Choice.eq_of_onGo found
      exact .answered _ _ (about ▸ .lossyIsEmpty)
  | capacityLoad chunk total =>
      simp only [step, about] at found
      have reached := Choice.eq_of_onGo found
      split at reached
      · next more =>
        subst s'
        exact .go _ (about ▸ .capacityNext chunk total more.1 more.2)
      · next last =>
        subst s'
        refine .answered _ _ (about ▸ .capacity chunk total fun bounded => ?_)
        simpa [bounded] using last
  | reserveLen additional =>
      simp only [step, about] at found
      have reached := Choice.eq_of_onGo found
      split at reached
      · next overflow =>
        subst s'
        exact .failed (about ▸ .reserveLen additional overflow)
      · next total sum =>
        subst s'
        exact .go _ (about ▸ .reserveLen additional total sum)
  | reserveSlots total =>
      simp only [step, about] at found
      cases Choice.eq_of_onGo found
      exact .go _ (about ▸ .reserveSlots total)
  | vecReserve additional =>
      simp only [step, about] at found
      cases Choice.eq_of_onGo found
      rw [Sys.vecReserve]
      split
      · next overflow => exact .failed (about ▸ .vecReserve additional (Or.inl overflow))
      · next targetCap sum =>
        split
        · next zero => exact .go _ (about ▸ .vecReserveNothing additional (zero ▸ sum))
        · next positive =>
          split
          · next large =>
            exact .failed (about ▸ .vecReserve additional (Or.inr ⟨targetCap, sum, large⟩))
          · next small =>
            exact .go _
              (about ▸ .vecReserve additional targetCap sum positive (Nat.lt_of_not_le small))

/-- A step moves one activity, by cases on the move. -/
theorem Moves.others (moves : s.Moves dbg t s') : ∀ other ≠ t, s'.pc other = s.pc other := by
  intro other apart
  have going (staged : Sys T K V E) (same : staged.pc = s.pc) (pc : Pc K V E) :
      (staged.goto t pc).pc other = s.pc other := by
    rw [pc_goto_of_ne _ t apart, same]
  cases moves with
  | stay => rfl
  | go | popped | pushed | wrote | armed | allocated | installed | deallocated | linked
  | recycled | dropped | acquired | began | counted | discounted => exact going _ (by rfl) _
  | answered | published | beganReserve | beganDeref | beganDrop | beganForget =>
      exact going _ (by exact pc_answer _ t _) _
  | returned | unwound => exact going _ (pc_finish s t _) _
  | failed => exact pc_unwind_of_ne s t apart
  | dropPanicked => exact pc_unwind_of_ne _ t apart
  | retired key current about same =>
      simp only [removeExchange, if_pos same]
      exact going _ (by exact pc_answer _ t _) _
  | decremented =>
      rw [decRefCount]
      split <;> exact going _ (by rfl) _
  | guarded key getter about same =>
      simp only [acquireCheck, if_pos same]
      exact going _ (by exact pc_answer _ t _) _
  | cloned guard about =>
      rw [cloneGuard]
      generalize wrappingAdd (s.slots (KeyData.idx guard.key)).refCount 1 = count
      dsimp only
      split
      · exact going _ (by exact pc_answer _ t _) _
      · exact pc_unwind_of_ne _ t apart

-----------------------------------------------------------------------------------------
-- Where a step leads
-----------------------------------------------------------------------------------------

/-- The program counters that an activity may have after its step, and what led there. -/
inductive Leads (dbg : Bool) (s : Sys T K V E) (t : T) : Pc K V E → Prop
  | stay (idx : Nat) (next : Pc K V E) (about : s.pc t = .waitForChunk idx next)
    (missing : s.chunks (chunkOf idx) = none)
    : Leads dbg s t (s.pc t)
  | go (pc : Pc K V E) (goes : (s.pc t).Goes dbg s pc) : Leads dbg s t pc
  | answered (res : Res K V E) (pc : Pc K V E) (answers : (s.pc t).Answers dbg s res pc)
    : Leads dbg s t pc
  | failed (fails : (s.pc t).Fails dbg s) : Leads dbg s t .unwinding
  | dropPanicked (idx : Nat) (after : AfterPush K E) (about : s.pc t = .dropValue idx after)
    : Leads dbg s t .unwinding
  | refused (guard : Guard K V) (about : s.pc t = .cloneInc guard)
    (full : MAX_REFCOUNT < (s.slots (KeyData.idx guard.key)).refCount)
    : Leads dbg s t .unwinding
  | popped (old next seen : Nat) (about : s.pc t = .popCas old next seen) (same : s.freeHead = old)
    : Leads dbg s t
        (.exclusivelyOwned dbg (unpackFreeHead old).2
          (.waitForChunk (unpackFreeHead old).2 (.insertVersion (unpackFreeHead old).2)))
  | pushed (about : s.pc t = .pushZeroed)
    : Leads dbg s t (.ensureLoad (chunkOf s.len) (.pushed s.len))
  | wrote (idx version : Nat) (stored : Stored V)
    (about : s.pc t = .insertWrite idx version stored.value)
    : Leads dbg s t (.insertRefCount idx version stored)
  | armed (idx version : Nat) (stored : Stored V)
    (about : s.pc t = .insertRefCount idx version stored)
    : Leads dbg s t (.insertPublish idx version stored)
  | published (idx version : Nat) (stored : Stored V)
    (about : s.pc t = .insertPublish idx version stored)
    : Leads dbg s t (.insertCount (KeyData.new idx version) stored)
  | counted (key : K) (stored : Stored V) (about : s.pc t = .insertCount key stored)
    : Leads dbg s t (.ret (.inserted key stored))
  | allocated (chunk buffer : Nat) (after : AfterEnsure)
    (about : s.pc t = .ensureAlloc chunk after)
    : Leads dbg s t (.ensureCas chunk (some buffer) after)
  | ensured (after : AfterEnsure)
    (about
      : (∃ chunk new, s.pc t = .ensureCas chunk new after)
        ∨ ∃ new, s.pc t = .ensureDealloc new after)
    : Leads dbg s t after.resume
  | linked (idx old : Nat) (after : AfterPush K E) (about : s.pc t = .pushStore idx old after)
    : Leads dbg s t (.pushCas idx old after)
  | recycled (idx old : Nat) (after : AfterPush K E) (about : s.pc t = .pushCas idx old after)
    : Leads dbg s t after.resume
  | dropped (idx : Nat) (after : AfterPush K E) (about : s.pc t = .dropValue idx after)
    : Leads dbg s t (.pushFreeIndex dbg idx after)
  | retired (key : K) (current : Nat) (about : s.pc t = .removeCas key current)
    : Leads dbg s t (.removeDec key)
  | released (idx : Nat) (needsDrop otherwise : Pc K V E)
    (decrements : (s.pc t).Decrements idx needsDrop otherwise)
    (last : (s.slots idx).refCount = 1)
    : Leads dbg s t needsDrop
  | gaveUp (idx : Nat) (needsDrop otherwise : Pc K V E)
    (decrements : (s.pc t).Decrements idx needsDrop otherwise)
    : Leads dbg s t otherwise
  | discounted (key : K) (about : s.pc t = .removeCount key) : Leads dbg s t (.ret (.removed true))
  | acquired (key : K) (getter : Getter) (refcount : Nat)
    (about : s.pc t = .acquireCas key getter refcount)
    : Leads dbg s t (.acquireVersion key getter)
  | guarded (key : K) (getter : Getter) (guard : Guard K V)
    (about : s.pc t = .acquireVersion key getter)
    : Leads dbg s t (.ret (getter.acquired key guard))
  | cloned (guard clone : Guard K V) (about : s.pc t = .cloneInc guard)
    : Leads dbg s t (.ret (.cloned clone))
  | began (op : Op K) (pc : Pc K V E) (calls : (s.pc t).Calls op) (starts : op.Starts s pc)
    : Leads dbg s t pc
  | beganReserve (additional : Nat) (calls : (s.pc t).Calls (.reserve additional : Op K))
    : Leads dbg s t (.reserveLen additional)
  | beganDeref (id : Nat) (stored : Option (Stored V))
    (calls : (s.pc t).Calls (.derefGuard id : Op K))
    : Leads dbg s t (.ret (.read stored))
  | beganDrop (id : Nat) (guard : Guard K V) (calls : (s.pc t).Calls (.dropGuard id : Op K))
    (found : s.guards.find? (·.id == id) = some guard)
    : Leads dbg s t (.waitForChunk (KeyData.idx guard.key) (.unguardDec guard))
  | beganForget (id : Nat) (calls : (s.pc t).Calls (.forgetGuard id : Op K))
    : Leads dbg s t (.ret .done)
  | returned (res : Res K V E) (about : s.pc t = .ret res) : Leads dbg s t res.rest
  | unwound (about : s.pc t = .unwinding) : Leads dbg s t .idle

/-- A step leads to one of these, by cases on the move. -/
theorem Moves.leads (moves : s.Moves dbg t s') : s.Leads dbg t (s'.pc t) := by
  have going (staged : Sys T K V E) (pc : Pc K V E) (leads : s.Leads dbg t pc) :
      s.Leads dbg t ((staged.goto t pc).pc t) := by
    rw [pc_goto_self]
    exact leads
  cases moves with
  | stay idx next about missing => exact .stay idx next about missing
  | go pc goes => exact going _ _ (.go pc goes)
  | answered res pc answers => exact going _ _ (.answered res pc answers)
  | failed fails => exact pc_unwind_self s t ▸ .failed fails
  | dropPanicked idx after about => exact pc_unwind_self _ t ▸ .dropPanicked idx after about
  | popped old next seen about same => exact going _ _ (.popped old next seen about same)
  | pushed about => exact going _ _ (.pushed about)
  | wrote idx version value about => exact going _ _ (.wrote idx version _ about)
  | armed idx version stored about => exact going _ _ (.armed idx version stored about)
  | published idx version stored about => exact going _ _ (.published idx version stored about)
  | counted key stored about => exact going _ _ (.counted key stored about)
  | allocated chunk after about => exact going _ _ (.allocated chunk _ after about)
  | installed chunk new after about =>
      exact going _ _ (.ensured after (Or.inl ⟨chunk, new, about⟩))
  | deallocated new after about => exact going _ _ (.ensured after (Or.inr ⟨new, about⟩))
  | linked idx old after about => exact going _ _ (.linked idx old after about)
  | recycled idx old after about => exact going _ _ (.recycled idx old after about)
  | dropped idx after about => exact going _ _ (.dropped idx after about)
  | retired key current about same =>
      simp only [removeExchange, if_pos same]
      exact going _ _ (.retired key current about)
  | decremented idx needsDrop otherwise decrements =>
      rw [decRefCount]
      split
      · next last => exact going _ _ (.released idx needsDrop otherwise decrements last)
      · exact going _ _ (.gaveUp idx needsDrop otherwise decrements)
  | discounted key about => exact going _ _ (.discounted key about)
  | acquired key getter refcount about => exact going _ _ (.acquired key getter refcount about)
  | guarded key getter about same =>
      simp only [acquireCheck, if_pos same]
      exact going _ _ (.guarded key getter _ about)
  | cloned guard about =>
      rw [cloneGuard]
      generalize wrappingAdd (s.slots (KeyData.idx guard.key)).refCount 1 = count
      dsimp only
      split
      · exact going _ _ (.cloned guard _ about)
      · next full => exact pc_unwind_self _ t ▸ .refused guard about (Nat.lt_of_not_le full)
  | began op pc calls starts => exact going _ _ (.began op pc calls starts)
  | beganReserve additional calls => exact going _ _ (.beganReserve additional calls)
  | beganDeref id guard calls => exact going _ _ (.beganDeref id _ calls)
  | beganDrop id guard calls found => exact going _ _ (.beganDrop id guard calls found)
  | beganForget id guard calls => exact going _ _ (.beganForget id calls)
  | returned res about => exact going _ _ (.returned res about)
  | unwound about => exact going _ _ (.unwound about)

end Sys

end AtomicSlotMap
