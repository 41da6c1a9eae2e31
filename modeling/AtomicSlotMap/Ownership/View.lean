import AtomicSlotMap.Implementation.Runs
import AtomicSlotMap.Library.LinkedChain
import AtomicSlotMap.Ownership.Preservation

/-! The ownership state that a state of the program implements, and the invariant that ties
the two: the packed free head, the chain of free slots and what each program counter knows.
-/

namespace AtomicSlotMap

variable {T K V E : Type} [Key K]

/-- The role of an activity inside `ensure_chunk_exists`. -/
def AfterEnsure.role : AfterEnsure → Role K V
  | .pushed idx => .reserved idx
  | .reserving _ _ => .none

/-- The role of an activity inside `push_free_index`: a failed insertion gives its slot back,
the others have dropped a value.
-/
def AfterPush.role (idx : Nat) : AfterPush K E → Role K V
  | .failed _ => .reserved idx
  | _ => .emptied idx

omit [Key K] in
/-- Inside `push_free_index` the slot is held without a value. -/
theorem AfterPush.vacant_role {idx : Nat} (after : AfterPush K E)
    : (after.role idx : Role K V).vacant idx := by
  cases after <;> rfl

/-- The role of an activity at a program counter. -/
def Pc.role : Pc K V E → Role K V
  | .waitForChunk _ next | .assertRefCount _ next | .assertVersion _ next => next.role
  | .insertVersion idx | .closure idx _ | .insertWrite idx _ _ => .reserved idx
  | .insertRefCount idx _ stored => .filled idx stored
  | .insertPublish idx _ stored => .armed idx stored
  | .ensureLoad _ after | .ensureAlloc _ after | .ensureCas _ _ after
  | .ensureDealloc _ after => after.role
  | .pushLoad idx after | .pushStore idx _ after | .pushCas idx _ after => after.role idx
  | .dropValue idx _ => .dropping idx
  | .removeDec key => .retiring key
  | .acquireVersion key _ | .acquireDec key _ => .temp (KeyData.idx key)
  | .unguardDec guard => .unguarding guard
  | _ => .none

@[simp] theorem Getter.role_missed (getter : Getter)
    : (getter.missed : Pc K V E).role = .none := by
  cases getter <;> rfl

@[simp] theorem AfterPush.role_resume (after : AfterPush K E)
    : (after.resume : Pc K V E).role = .none := by
  cases after with
  | missed getter => exact getter.role_missed
  | _ => rfl

@[simp] theorem AfterEnsure.role_resume (after : AfterEnsure)
    : (after.resume : Pc K V E).role = after.role := by
  cases after with
  | pushed idx => rfl
  | reserving chunk maxChunk =>
      simp only [AfterEnsure.resume]
      split <;> rfl

@[simp] theorem Pc.role_exclusivelyOwned (dbg : Bool) (idx : Nat) (next : Pc K V E)
    : (Pc.exclusivelyOwned dbg idx next).role = next.role := by
  cases dbg <;> rfl

@[simp] theorem Pc.role_pushFreeIndex (dbg : Bool) (idx : Nat) (after : AfterPush K E)
    : (Pc.pushFreeIndex dbg idx after : Pc K V E).role = after.role idx := by
  cases dbg <;> rfl

@[simp] theorem Pc.role_popLoop (head updates : Nat)
    : (Pc.popLoop head updates : Pc K V E).role = .none := by
  rw [Pc.popLoop]
  split <;> rfl

@[simp] theorem Res.role_rest (res : Res K V E) : res.rest.role = .none := by
  cases res <;> rfl

/-- The slot that an activity would lose by unwinding is one it is answerable for, and not as
a remover; by induction on the waits before its access.
-/
theorem Pc.role_of_holds {pc : Pc K V E} {idx : Nat} (holds : pc.holds = some idx)
    : pc.role.holds = some idx ∧ ∀ key, pc.role ≠ .retiring key := by
  induction pc with
  | waitForChunk _ next ih => exact ih holds
  | assertRefCount _ next ih => exact ih holds
  | assertVersion _ next ih => exact ih holds
  | ensureLoad _ after | ensureAlloc _ after | ensureCas _ _ after | ensureDealloc _ after =>
      cases after with
      | pushed held =>
          cases holds
          exact ⟨rfl, nofun⟩
      | reserving chunk maxChunk => cases holds
  | pushLoad held after | pushStore held _ after | pushCas held _ after =>
      cases holds
      cases after <;> exact ⟨rfl, nofun⟩
  | insertVersion | closure | insertWrite | insertRefCount | insertPublish | dropValue =>
      cases holds
      exact ⟨rfl, nofun⟩
  | _ => cases holds

/-- A move of a program counter keeps its role, by cases on the move. -/
theorem Pc.Goes.role {dbg : Bool} {s : Sys T K V E} {pc pc' : Pc K V E}
    (goes : pc.Goes dbg s pc')
    : pc'.role = pc.role := by
  cases goes with
  | popLoad | popAgain => exact Pc.role_popLoop _ _
  | closureOk idx version value =>
      exact Pc.role_exclusivelyOwned dbg idx (.insertWrite idx version value)
  | ensurePresent chunk after => exact after.role_resume
  | _ => rfl

/-- A move that answers keeps the role, by cases on the move. -/
theorem Pc.Answers.role {dbg : Bool} {s : Sys T K V E} {pc pc' : Pc K V E}
    {res : Res K V E} (answers : pc.Answers dbg s res pc')
    : pc'.role = pc.role := by
  cases answers with
  | closureErr idx version err => exact Pc.role_pushFreeIndex dbg idx (.failed err)
  | _ => rfl

/-- A call starts without a role, by cases on the call. -/
theorem Op.Starts.role {s : Sys T K V E} {op : Op K} {pc : Pc K V E}
    (starts : op.Starts s pc)
    : pc.role = .none := by
  cases starts <;> rfl

/-- An activity at rest has no role. -/
theorem Pc.Calls.role {pc : Pc K V E} {op : Op K} (calls : pc.Calls op)
    : pc.role = .none := by
  rcases calls with ⟨rfl, _⟩ | ⟨_, rfl, _⟩ <;> rfl

/-- Whoever decrements a count has the reference it gives up. -/
theorem Pc.Decrements.references {pc needsDrop otherwise : Pc K V E} {idx : Nat}
    (decrements : pc.Decrements idx needsDrop otherwise)
    : pc.role.references idx := by
  cases decrements <;> rfl

/-- The last reference obliges to drop the value. -/
theorem Pc.Decrements.role_needsDrop {pc needsDrop otherwise : Pc K V E} {idx : Nat}
    (decrements : pc.Decrements idx needsDrop otherwise)
    : needsDrop.role = .dropping idx := by
  cases decrements <;> rfl

theorem Pc.Decrements.role_otherwise {pc needsDrop otherwise : Pc K V E} {idx : Nat}
    (decrements : pc.Decrements idx needsDrop otherwise)
    : otherwise.role = .none := by
  cases decrements with
  | acquire key getter => exact getter.role_missed
  | _ => rfl

/-- The ownership state of a program state, given its free slots. -/
def Sys.view (s : Sys T K V E) (free : List Nat) : Ownership T K V where
  slots := s.slots
  len := s.len
  free := free
  role := fun t => (s.pc t).role
  guards := (s.guards ++ s.forgotten : List (Guard K V))
  trace := s.trace

namespace Sys

variable [DecidableEq T] (s : Sys T K V E) (free : List Nat)

@[simp] theorem view_goto (t : T) (pc : Pc K V E)
    : (s.goto t pc).view free
      = { s.view free with role := Function.update (s.view free).role t pc.role } := by
  simp only [view, goto, Ownership.mk.injEq, true_and, and_true]
  funext other
  by_cases self : other = t
  · subst other
    simp
  · simp [self]

omit [DecidableEq T] in
@[simp] theorem view_setSlot (idx : Nat) (slot : Slot V)
    : (s.setSlot idx slot).view free
      = { s.view free with slots := Function.update (s.view free).slots idx slot } := rfl

omit [DecidableEq T] in
@[simp] theorem view_setFreeHead (word : Nat)
    : (s.setFreeHead word).view free = s.view free := rfl

omit [DecidableEq T] in
@[simp] theorem view_addGuard (guard : Guard K V)
    : (s.addGuard guard).view free
      = { s.view free with guards := guard ::ₘ (s.view free).guards } := rfl

omit [DecidableEq T] in
@[simp] theorem view_emit (event : Event T K V)
    : (s.emit event).view free
      = { s.view free with trace := event :: (s.view free).trace } := rfl

omit [DecidableEq T] in
@[simp] theorem view_answer (t : T) (res : Res K V E)
    : (s.answer t res).view free = s.view free := by
  rw [answer]
  split <;> rfl

@[simp] theorem view_begin (t : T) (op : Op K) : (s.begin t op).view free = s.view free := rfl

@[simp] theorem view_finish (t : T) (event : Nat → HistoryEvent K V E)
    : (s.finish t event).view free = s.view free := by
  rw [finish]
  split <;> rfl

end Sys

/-- A head word read at some update of the free list: as long as no other update happened,
it is the current one.
-/
structure Sys.Observed (s : Sys T K V E) (old seen : Nat) : Prop where
  word : old = packFreeHead (seen % 2 ^ 32) (unpackFreeHead old).2
  some : (unpackFreeHead old).2 ≠ SENTINEL
  past : seen ≤ s.updates
  current : seen = s.updates → old = s.freeHead

/-- A freshly pushed slot has version zero. -/
def AfterEnsure.Fits (s : Sys T K V E) : AfterEnsure → Prop
  | .pushed idx => (s.slots idx).version = 0
  | .reserving _ _ => True

/-- The locals of a program counter agree with the state. -/
def Pc.Fits (s : Sys T K V E) : Pc K V E → Prop
  | .waitForChunk _ next => next.Fits s
  | .assertRefCount idx next | .assertVersion idx next =>
      next.role.vacant idx ∧ next.Fits s
  | .popNext old seen => s.Observed old seen
  | .popCas old next seen =>
      s.Observed old seen
      ∧ (seen = s.updates → next = (s.slots (unpackFreeHead old).2).nextFree)
  | .closure idx version | .insertWrite idx version _ | .insertRefCount idx version _
  | .insertPublish idx version _ => version = (s.slots idx).version ||| 1
  | .ensureLoad _ after | .ensureAlloc _ after | .ensureCas _ _ after
  | .ensureDealloc _ after => after.Fits s
  | .pushCas idx old _ => (s.slots idx).nextFree = (unpackFreeHead old).2
  | .dropValue idx after => (after.role idx : Role K V) = .emptied idx
  | .removeCas key current => current = KeyData.version key
  | .acquireCas _ _ refcount => 0 < refcount ∧ refcount ≤ MAX_REFCOUNT
  | .cloneInc guard => guard ∈ s.guards
  | _ => True

/-- The program state and the ownership state agree. -/
structure Sys.Inv [DecidableEq T] [Fintype T] (s : Sys T K V E) (free : List Nat)
    : Prop where
  owned : (s.view free).Inv
  chain
    : Library.Chain (fun idx => (s.slots idx).nextFree) SENTINEL
        (unpackFreeHead s.freeHead).2 free
  head : s.freeHead = packFreeHead (s.updates % 2 ^ 32) (unpackFreeHead s.freeHead).2
  versions : ∀ idx, (s.slots idx).version < 2 ^ 32
  fits : ∀ t, (s.pc t).Fits s

end AtomicSlotMap
