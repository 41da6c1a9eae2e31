import AtomicSlotMap.Implementation.Runs
import Mathlib.Algebra.BigOperators.Group.List.Basic
import Mathlib.Algebra.Order.Group.Multiset

/-! What each step records: publications, removals and the updates of the element counter are
tallied by key, and only the first two change the version of a slot.
-/

namespace AtomicSlotMap

variable {T K V E : Type} [Key K]

/-- What an event contributes to the publications. -/
def Event.publishes : Event T K V → Multiset (Nat × Nat)
  | .published _ key _ => {KeyData.place key}
  | _ => 0

/-- What an event contributes to the removals. -/
def Event.retires : Event T K V → Multiset (Nat × Nat)
  | .retired _ key => {KeyData.place key}
  | _ => 0

/-- What an event contributes to the increments of the counter. -/
def Event.counts : Event T K V → Multiset (Nat × Nat)
  | .counted _ key => {KeyData.place key}
  | _ => 0

/-- What an event contributes to the decrements of the counter. -/
def Event.discounts : Event T K V → Multiset (Nat × Nat)
  | .discounted _ key => {KeyData.place key}
  | _ => 0

/-- Events that no tally is about. -/
structure Event.Plain (event : Event T K V) : Prop where
  publishes : event.publishes = 0
  retires : event.retires = 0
  counts : event.counts = 0
  discounts : event.discounts = 0

/-- The keys that a kind of event was about, decoded and with multiplicity. -/
def tally (kind : Event T K V → Multiset (Nat × Nat)) (trace : List (Event T K V)) : Multiset (Nat × Nat) :=
  (trace.map kind).sum

omit [Key K] in
@[simp] theorem tally_cons (kind : Event T K V → Multiset (Nat × Nat)) (event : Event T K V)
    (trace : List (Event T K V))
    : tally kind (event :: trace) = kind event + tally kind trace := by
  simp [tally]

omit [Key K] in
/-- Events that a tally is not about do not change it. -/
theorem tally_append {kind : Event T K V → Multiset (Nat × Nat)}
    {events : List (Event T K V)} (trace : List (Event T K V))
    (none : ∀ event ∈ events, kind event = 0)
    : tally kind (events ++ trace) = tally kind trace := by
  rw [tally, tally, List.map_append, List.sum_append,
    List.sum_eq_zero fun value member => ?_, zero_add]
  obtain ⟨event, listed, rfl⟩ := List.mem_map.mp member
  exact none event listed

/-- The index that an event hands out. -/
def Event.handsOut : Event T K V → Option Nat
  | .pushed _ idx => some idx
  | _ => none

/-- The indices that `push_zeroed` has handed out, latest first. -/
def handedOut (trace : List (Event T K V)) : List Nat := trace.filterMap Event.handsOut

-----------------------------------------------------------------------------------------
-- The slots after a step
-----------------------------------------------------------------------------------------

namespace Sys

variable [DecidableEq T]

section

variable (s : Sys T K V E) (t : T)

omit [Key K] [DecidableEq T] in
@[simp] theorem slots_answer (res : Res K V E) : (s.answer t res).slots = s.slots :=
  (alike_answer s t res).slots

omit [Key K] in
@[simp] theorem slots_unwind : (s.unwind t).slots = s.slots := (alike_unwind s t).slots

theorem slots_publish (idx version : Nat) (stored : Stored V)
    : (s.publish t idx version stored).slots
      = Function.update s.slots idx { s.slots idx with version := version } :=
  slots_answer _ t _

theorem trace_publish (idx version : Nat) (stored : Stored V)
    : (s.publish t idx version stored).trace
      = .published t (KeyData.new idx version) stored :: s.trace :=
  trace_answer _ t _

theorem trace_removeExchange {key : K} {current : Nat}
    (same : (s.slots (KeyData.idx key)).version = current)
    : (s.removeExchange t key current).trace = .retired t key :: s.trace := by
  simp only [removeExchange, if_pos same]
  exact trace_answer _ t _

theorem slots_removeExchange {key : K} {current : Nat}
    (same : (s.slots (KeyData.idx key)).version = current)
    : (s.removeExchange t key current).slots
      = Function.update s.slots (KeyData.idx key)
          { s.slots (KeyData.idx key) with version := wrappingAdd current 1 } := by
  simp only [removeExchange, if_pos same]
  exact slots_answer _ t _

theorem slots_acquireCheck {key : K} (getter : Getter)
    (same : (s.slots (KeyData.idx key)).version = KeyData.version key)
    : (s.acquireCheck t key getter).slots = s.slots := by
  simp only [acquireCheck, if_pos same]
  exact slots_answer _ t _

/-- A clone raises the count of its slot, even if it is refused. -/
theorem slots_cloneGuard (guard : Guard K V)
    : (s.cloneGuard t guard).slots
      = Function.update s.slots (KeyData.idx guard.key)
          {
            s.slots (KeyData.idx guard.key) with
            refCount := wrappingAdd (s.slots (KeyData.idx guard.key)).refCount 1
          } := by
  rw [cloneGuard]
  generalize wrappingAdd (s.slots (KeyData.idx guard.key)).refCount 1 = count
  dsimp only
  split
  · exact slots_answer _ t _
  · exact slots_unwind _ t

end

variable {dbg : Bool} {s s' : Sys T K V E} {t : T}

omit [Key K] [DecidableEq T] in
/-- Changing one slot but not its version changes no version. -/
theorem versions_of_slot {idx : Nat} {slot : Slot V}
    (slots : s'.slots = Function.update s.slots idx slot)
    (version : slot.version = (s.slots idx).version) (other : Nat)
    : (s'.slots other).version = (s.slots other).version := by
  rw [slots]
  by_cases same : other = idx
  · subst other
    rw [Function.update_self, version]
  · rw [Function.update_of_ne same]

/-- What a step records and what it does to the versions. -/
inductive Records (s : Sys T K V E) (t : T) (s' : Sys T K V E) : Prop
  | plain (events : List (Event T K V)) (trace : s'.trace = events ++ s.trace)
    (plain : ∀ event ∈ events, event.Plain)
    (versions : ∀ idx, (s'.slots idx).version = (s.slots idx).version)
  | published (idx version : Nat) (stored : Stored V)
    (about : s.pc t = .insertPublish idx version stored)
    (reached : s' = s.publish t idx version stored)
  | retired (key : K) (current : Nat) (about : s.pc t = .removeCas key current)
    (same : (s.slots (KeyData.idx key)).version = current)
    (reached : s' = s.removeExchange t key current)
  | counted (key : K) (stored : Stored V) (about : s.pc t = .insertCount key stored)
    (trace : s'.trace = .counted t key :: s.trace)
    (versions : ∀ idx, (s'.slots idx).version = (s.slots idx).version)
  | discounted (key : K) (about : s.pc t = .removeCount key)
    (trace : s'.trace = .discounted t key :: s.trace)
    (versions : ∀ idx, (s'.slots idx).version = (s.slots idx).version)

theorem Records.going (trace : s'.trace = s.trace)
    (versions : ∀ idx, (s'.slots idx).version = (s.slots idx).version)
    : s.Records t s' :=
  .plain [] trace nofun versions

theorem Records.noting {event : Event T K V} (trace : s'.trace = event :: s.trace)
    (plain : event.Plain) (versions : ∀ idx, (s'.slots idx).version = (s.slots idx).version)
    : s.Records t s' :=
  .plain [event] trace (by simpa using plain) versions

omit [Key K] in
/-- The events of a panic are losses. -/
theorem leaked_of_unwind (s : Sys T K V E) (t : T)
    : ∃ events, (s.unwind t).trace = events ++ s.trace
        ∧ ∀ event ∈ events, ∃ idx, event = .leaked t idx := by
  rw [unwind]
  split
  · next idx holds =>
    refine ⟨[.leaked t idx], rfl, ?_⟩
    intro event member
    exact ⟨idx, List.mem_singleton.mp member⟩
  · exact ⟨[], rfl, fun _ member => absurd member List.not_mem_nil⟩

/-- A panic records at most a lost slot. -/
theorem trace_unwind (s : Sys T K V E) (t : T)
    : ∃ events, (s.unwind t).trace = events ++ s.trace ∧ ∀ event ∈ events, event.Plain := by
  obtain ⟨events, trace, lost⟩ := leaked_of_unwind s t
  refine ⟨events, trace, fun event member => ?_⟩
  obtain ⟨idx, rfl⟩ := lost event member
  exact ⟨rfl, rfl, rfl, rfl⟩

/-- Every step records one of these, by cases on the move. -/
theorem Moves.records (moves : s.Moves dbg t s') : s.Records t s' := by
  have kept (same : s'.slots = s.slots) (idx : Nat) :
      (s'.slots idx).version = (s.slots idx).version := by rw [same]
  cases moves with
  | stay | go | began => exact .going rfl fun _ => rfl
  | linked | acquired => exact .going rfl (versions_of_slot rfl rfl)
  | popped | pushed | allocated | installed | deallocated | recycled =>
      exact .noting rfl ⟨rfl, rfl, rfl, rfl⟩ fun _ => rfl
  | wrote | armed | dropped =>
      exact .noting rfl ⟨rfl, rfl, rfl, rfl⟩ (versions_of_slot rfl rfl)
  | answered | beganReserve | beganDeref | beganDrop | beganForget =>
      exact .going (trace_answer _ t _) (kept (slots_answer _ t _))
  | returned | unwound =>
      exact .going (trace_finish s t _) (kept (alike_finish s t _).slots)
  | failed =>
      obtain ⟨events, trace, plain⟩ := trace_unwind s t
      exact .plain events trace plain (kept (slots_unwind s t))
  | dropPanicked idx =>
      obtain ⟨events, trace, plain⟩ := trace_unwind (s.dropInnerValue t idx) t
      have dropped : (s.dropInnerValue t idx).trace
          = [.dropped t idx (s.slots idx).data] ++ s.trace := rfl
      rw [dropped, ← List.append_assoc] at trace
      refine .plain _ trace ?_ (versions_of_slot (slots_unwind _ t) rfl)
      intro event member
      rcases List.mem_append.mp member with lost | now
      · exact plain event lost
      · cases List.mem_singleton.mp now
        exact ⟨rfl, rfl, rfl, rfl⟩
  | decremented =>
      rw [decRefCount]
      split
      all_goals exact .noting rfl ⟨rfl, rfl, rfl, rfl⟩ (versions_of_slot rfl rfl)
  | published idx version stored about => exact .published idx version stored about rfl
  | retired key current about same => exact .retired key current about same rfl
  | counted key stored about => exact .counted key stored about rfl fun _ => rfl
  | discounted key about => exact .discounted key about rfl fun _ => rfl
  | guarded key getter about same =>
      refine .going ?_ (kept (slots_acquireCheck s t getter same))
      simp only [acquireCheck, if_pos same]
      exact trace_answer _ t _
  | cloned guard about =>
      have versions := versions_of_slot (slots_cloneGuard s t guard) rfl
      revert versions
      rw [cloneGuard]
      generalize wrappingAdd (s.slots (KeyData.idx guard.key)).refCount 1 = count
      dsimp only
      split
      · exact .going (trace_answer _ t _)
      · intro versions
        obtain ⟨events, trace, plain⟩ := trace_unwind (s.setSlot (KeyData.idx guard.key)
          { s.slots (KeyData.idx guard.key) with refCount := count }) t
        exact .plain events trace plain versions

/-- Only publications and removals change a version. -/
theorem Records.versions (records : s.Records t s')
    : (∀ idx, (s'.slots idx).version = (s.slots idx).version)
      ∨ (∃ idx version stored,
          s.pc t = .insertPublish idx version stored ∧ s' = s.publish t idx version stored)
      ∨ ∃ key current,
          s.pc t = .removeCas key current
          ∧ (s.slots (KeyData.idx key)).version = current
          ∧ s' = s.removeExchange t key current := by
  cases records with
  | plain _ _ _ versions | counted _ _ _ _ versions | discounted _ _ _ versions =>
      exact Or.inl versions
  | published idx version stored about reached =>
      exact Or.inr (Or.inl ⟨idx, version, stored, about, reached⟩)
  | retired key current about same reached =>
      exact Or.inr (Or.inr ⟨key, current, about, same, reached⟩)

/-- A step only adds to the trace. -/
theorem Records.suffix (records : s.Records t s') : s.trace <:+ s'.trace := by
  cases records with
  | plain events trace plain versions => exact ⟨events, trace.symm⟩
  | published idx version stored about reached =>
      rw [reached, trace_publish]
      exact List.suffix_cons _ _
  | retired key current about same reached =>
      rw [reached, trace_removeExchange s t same]
      exact List.suffix_cons _ _
  | counted key stored about trace versions =>
      rw [trace]
      exact List.suffix_cons _ _
  | discounted key about trace versions =>
      rw [trace]
      exact List.suffix_cons _ _

-----------------------------------------------------------------------------------------
-- Why each event happens
-----------------------------------------------------------------------------------------

/-- An event of a step is by the activity that moves, which stands at the access it is about. -/
def Caused (s : Sys T K V E) (t : T) (s' : Sys T K V E) : Event T K V → Prop
  | .pushed actor idx => actor = t ∧ s.pc t = .pushZeroed ∧ idx = s.len
  | .popped actor idx =>
      actor = t
      ∧ ∃ old next seen,
          s.pc t = .popCas old next seen ∧ s.freeHead = old ∧ idx = (unpackFreeHead old).2
  | .recycled actor idx => actor = t ∧ ∃ old after, s.pc t = .pushCas idx old after
  | .wrote actor idx stored =>
      actor = t ∧ ∃ version, s.pc t = .insertWrite idx version stored.value
  | .armed actor idx => actor = t ∧ ∃ version stored, s.pc t = .insertRefCount idx version stored
  | .published actor key stored =>
      actor = t
      ∧ ∃ idx version, s.pc t = .insertPublish idx version stored ∧ key = KeyData.new idx version
  | .retired actor key => actor = t ∧ ∃ current, s.pc t = .removeCas key current
  | .gaveUp actor idx =>
      actor = t
      ∧ (s.slots idx).refCount ≠ 1
      ∧ ∃ needsDrop otherwise, (s.pc t).Decrements idx needsDrop otherwise
  | .released actor idx =>
      actor = t
      ∧ (s.slots idx).refCount = 1
      ∧ ∃ needsDrop otherwise, (s.pc t).Decrements idx needsDrop otherwise
  | .dropped actor idx data =>
      actor = t ∧ data = (s.slots idx).data ∧ ∃ after, s.pc t = .dropValue idx after
  | .leaked actor _ => actor = t ∧ s'.pc t = .unwinding
  | .counted actor key => actor = t ∧ ∃ stored, s.pc t = .insertCount key stored
  | .discounted actor key => actor = t ∧ s.pc t = .removeCount key
  | .allocated actor chunk buffer elements =>
      actor = t
      ∧ buffer = s.buffers
      ∧ elements = chunkCapacity chunk
      ∧ ∃ after, s.pc t = .ensureAlloc chunk after
  | .installed actor chunk buffer =>
      actor = t ∧ s.chunks chunk = none ∧ ∃ after, s.pc t = .ensureCas chunk buffer after
  | .deallocated actor buffer => actor = t ∧ ∃ after, s.pc t = .ensureDealloc buffer after

/-- The events of a step have their causes in it. -/
def Causes (s : Sys T K V E) (t : T) (s' : Sys T K V E) : Prop :=
  ∃ events, s'.trace = events ++ s.trace ∧ ∀ event ∈ events, s.Caused t s' event

omit [DecidableEq T] in
theorem Causes.going (trace : s'.trace = s.trace) : s.Causes t s' := ⟨[], trace, nofun⟩

omit [DecidableEq T] in
theorem Causes.noting {event : Event T K V} (trace : s'.trace = event :: s.trace)
    (caused : s.Caused t s' event)
    : s.Causes t s' :=
  ⟨[event], trace, by simpa using caused⟩

/-- A panic after an update causes at most the loss of a slot as well. -/
theorem Causes.unwinding (earlier : s.Causes t s') : s.Causes t (s'.unwind t) := by
  obtain ⟨losses, trace, lost⟩ := leaked_of_unwind s' t
  obtain ⟨events, trace', caused⟩ := earlier
  rw [trace', ← List.append_assoc] at trace
  refine ⟨_, trace, ?_⟩
  intro event member
  rcases List.mem_append.mp member with now | before
  · obtain ⟨idx, rfl⟩ := lost event now
    exact ⟨rfl, pc_unwind_self s' t⟩
  · have cause := caused event before
    cases event with
    | leaked actor idx => exact ⟨cause.1, pc_unwind_self s' t⟩
    | _ => exact cause

/-- The events of every step have their causes in it, by cases on the move. -/
theorem Moves.causes (moves : s.Moves dbg t s') : s.Causes t s' := by
  cases moves with
  | stay | go | began | linked | acquired => exact .going rfl
  | popped old next seen about same => exact .noting rfl ⟨rfl, old, next, seen, about, same, rfl⟩
  | pushed about => exact .noting rfl ⟨rfl, about, rfl⟩
  | recycled idx old after about => exact .noting rfl ⟨rfl, old, after, about⟩
  | wrote idx version value about => exact .noting rfl ⟨rfl, version, about⟩
  | armed idx version stored about => exact .noting rfl ⟨rfl, version, stored, about⟩
  | allocated chunk after about => exact .noting rfl ⟨rfl, rfl, rfl, after, about⟩
  | installed chunk new after about absent => exact .noting rfl ⟨rfl, absent, after, about⟩
  | deallocated new after about => exact .noting rfl ⟨rfl, after, about⟩
  | dropped idx after about => exact .noting rfl ⟨rfl, rfl, after, about⟩
  | counted key stored about => exact .noting rfl ⟨rfl, stored, about⟩
  | discounted key about => exact .noting rfl ⟨rfl, about⟩
  | published idx version stored about =>
      exact .noting (trace_publish s t idx version stored) ⟨rfl, idx, version, about, rfl⟩
  | retired key current about same =>
      exact .noting (trace_removeExchange s t same) ⟨rfl, current, about⟩
  | answered | beganReserve | beganDeref | beganDrop | beganForget =>
      exact .going (trace_answer _ t _)
  | returned | unwound => exact .going (trace_finish s t _)
  | failed => exact .unwinding (.going rfl)
  | dropPanicked idx after about =>
      have dropped : s.Causes t (s.dropInnerValue t idx) := .noting rfl ⟨rfl, rfl, after, about⟩
      exact dropped.unwinding
  | decremented idx needsDrop otherwise decrements =>
      rw [decRefCount]
      split
      · next last => exact .noting rfl ⟨rfl, last, needsDrop, otherwise, decrements⟩
      · next more => exact .noting rfl ⟨rfl, more, needsDrop, otherwise, decrements⟩
  | guarded key getter about same =>
      simp only [acquireCheck, if_pos same]
      exact .going (trace_answer _ t _)
  | cloned guard about =>
      rw [cloneGuard]
      generalize wrappingAdd (s.slots (KeyData.idx guard.key)).refCount 1 = count
      dsimp only
      split
      · exact .going (trace_answer _ t _)
      · exact .unwinding (.going rfl)

end Sys

end AtomicSlotMap
