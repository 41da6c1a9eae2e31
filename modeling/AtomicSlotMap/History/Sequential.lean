import AtomicSlotMap.History.Solo

/-! Runs of a single thread whose destructors do not call the map. Calls are nested in closures
only, so each runs from one of its pauses to the next without interruption, and what it has
loaded stays up to date.
-/

namespace AtomicSlotMap

variable {T K V E : Type} [Key K]

/-- Whether an activity is at rest or runs a closure. -/
def Pc.waits : Pc K V E → Bool
  | .idle | .iterating _ | .closure _ _ => true
  | _ => false

/-- What an activity has loaded is what it would load now. -/
def Pc.Steady (s : Sys T K V E) : Pc K V E → Prop
  | .waitForChunk _ next | .assertRefCount _ next | .assertVersion _ next => next.Steady s
  | .popNext old seen | .popCas old _ seen => old = s.freeHead ∧ seen = s.updates
  | .pushStore _ old _ | .pushCas _ old _ => old = s.freeHead
  | .removeCas key current => (s.slots (KeyData.idx key)).version = current
  | .acquireCas key _ refcount => (s.slots (KeyData.idx key)).refCount = refcount
  | .nextGet idx => idx < s.len
  | _ => True

namespace Sys

/-- There is room for one more slot, and for one more reference to every slot. -/
structure Bounded (s : Sys T K V E) : Prop where
  room : s.len + 1 < 2 ^ 32
  references : ∀ idx, (s.slots idx).refCount < MAX_REFCOUNT

/-- All activities other than this one are at rest or run a closure. -/
def Only (s : Sys T K V E) (t : T) : Prop := ∀ other ≠ t, (s.pc other).waits = true

variable [DecidableEq T] [Fintype T]

instance (s : Sys T K V E) (t : T) : Decidable (s.Only t) :=
  inferInstanceAs (Decidable (∀ other ≠ t, (s.pc other).waits = true))

/-- A step of a single thread that is no panic, while there is room for slots and references. -/
def SequentialNext (dbg : Bool) (s s' : Sys T K V E) : Prop :=
  ∃ t choice, s.Bounded ∧ s.Only t ∧ step dbg s t choice = some s' ∧ s'.pc t ≠ .unwinding

/-- The states that a single thread reaches from the empty map. -/
def Sequential (dbg : Bool) (s : Sys T K V E) : Prop :=
  Relation.ReflTransGen (SequentialNext dbg) (.withKey T K V E) s

end Sys

section

variable {dbg : Bool} {s s' : Sys T K V E} {pc pc' : Pc K V E}

omit [Key K] in
theorem Pc.suspended_of_waits (waits : pc.waits = true) : pc.suspended = true := by
  cases pc <;> first | rfl | cases waits

theorem Pc.steady_of_waits (waits : pc.waits = true) : pc.Steady s := by
  cases pc with
  | idle | iterating | closure => trivial
  | _ => cases waits

/-- Only the words that were loaded matter, by induction on the waits. -/
theorem Pc.Steady.congr (steady : pc.Steady s) (freeHead : s'.freeHead = s.freeHead)
    (updates : s'.updates = s.updates) (slots : s'.slots = s.slots) (len : s'.len = s.len)
    : pc.Steady s' := by
  induction pc with
  | waitForChunk _ next ih | assertRefCount _ next ih | assertVersion _ next ih => exact ih steady
  | popNext | popCas => rwa [Pc.Steady, freeHead, updates]
  | pushStore | pushCas => rwa [Pc.Steady, freeHead]
  | removeCas | acquireCas => rwa [Pc.Steady, slots]
  | nextGet => rwa [Pc.Steady, len]
  | _ => trivial

theorem Pc.steady_exclusivelyOwned {idx : Nat} {next : Pc K V E} (steady : next.Steady s)
    : (Pc.exclusivelyOwned dbg idx next).Steady s := by
  cases dbg <;> exact steady

theorem Pc.steady_pushFreeIndex {idx : Nat} {after : AfterPush K E}
    : (Pc.pushFreeIndex dbg idx after : Pc K V E).Steady s :=
  have pushing : (Pc.pushLoad idx after : Pc K V E).Steady s := trivial
  Pc.steady_exclusivelyOwned pushing

theorem Pc.steady_popLoop
    : (Pc.popLoop s.freeHead s.updates : Pc K V E).Steady s := by
  rw [Pc.popLoop]
  split
  · trivial
  · exact ⟨rfl, rfl⟩

theorem Getter.steady_missed (getter : Getter) : (getter.missed : Pc K V E).Steady s := by
  cases getter <;> trivial

theorem AfterPush.steady_resume (after : AfterPush K E)
    : (after.resume : Pc K V E).Steady s := by
  cases after with
  | missed getter => exact getter.steady_missed
  | _ => trivial

theorem AfterEnsure.steady_resume (after : AfterEnsure)
    : (after.resume : Pc K V E).Steady s := by
  cases after with
  | pushed idx => trivial
  | reserving chunk maxChunk =>
      simp only [AfterEnsure.resume]
      split <;> trivial

theorem Res.steady_rest (res : Res K V E) : res.rest.Steady s := by
  cases res <;> trivial

/-- A move of a program counter loads what it goes on with, by cases on the move. -/
theorem Pc.Goes.steady (goes : pc.Goes dbg s pc') (steady : pc.Steady s) : pc'.Steady s := by
  cases goes with
  | arrived | unreferenced | unoccupied => exact steady
  | popLoad | popAgain => exact Pc.steady_popLoop
  | popNext => exact steady
  | closureOk idx version value => exact Pc.steady_exclusivelyOwned trivial
  | ensurePresent chunk after => exact after.steady_resume
  | pushLoad | pushAgain => rfl
  | removeCurrent key same | removeAgain key current same => exact same
  | acquireLoad | acquireAgain => rfl
  | nextWithin currentIdx within => exact within
  | _ => trivial

theorem Pc.Answers.steady {res : Res K V E} (answers : pc.Answers dbg s res pc')
    : pc'.Steady s' := by
  cases answers with
  | closureErr => exact Pc.steady_pushFreeIndex
  | _ => trivial

theorem Op.Starts.steady {op : Op K} (starts : op.Starts s pc) : pc.Steady s' := by
  cases starts <;> trivial

theorem Pc.Decrements.steady {needsDrop otherwise : Pc K V E} {idx : Nat}
    (decrements : pc.Decrements idx needsDrop otherwise)
    : needsDrop.Steady s ∧ otherwise.Steady s := by
  cases decrements with
  | acquire key getter => exact ⟨trivial, getter.steady_missed⟩
  | _ => exact ⟨trivial, trivial⟩

end

namespace Sys

variable [DecidableEq T] {dbg : Bool} {s s' : Sys T K V E} {t : T}

/-- An activity goes on with words that it has just loaded, by cases on the move. -/
theorem Moves.steady (moves : s.Moves dbg t s') (steady : (s.pc t).Steady s)
    : (s'.pc t).Steady s' := by
  have going (staged : Sys T K V E) {pc : Pc K V E} (trivially : pc.Steady (staged.goto t pc)) :
      ((staged.goto t pc).pc t).Steady (staged.goto t pc) := by
    rw [pc_goto_self]
    exact trivially
  cases moves with
  | stay => exact steady
  | go pc goes =>
      rw [pc_goto_self]
      exact (goes.steady steady).congr rfl rfl rfl rfl
  | answered res pc answers => exact going _ answers.steady
  | failed | dropPanicked =>
      rw [pc_unwind_self]
      trivial
  | popped => exact going _ (Pc.steady_exclusivelyOwned trivial)
  | installed _ _ after | deallocated _ after => exact going _ after.steady_resume
  | linked idx old after about =>
      rw [about] at steady
      rw [pc_goto_self]
      exact steady
  | recycled _ _ after => exact going _ after.steady_resume
  | dropped => exact going _ Pc.steady_pushFreeIndex
  | retired key current about same =>
      rw [removeExchange, if_pos same]
      exact going _ trivial
  | decremented idx needsDrop otherwise decrements =>
      rw [decRefCount]
      split
      · exact going _ decrements.steady.1
      · exact going _ decrements.steady.2
  | guarded key getter about same =>
      simp only [acquireCheck, if_pos same]
      exact going _ trivial
  | cloned guard about =>
      rw [cloneGuard]
      generalize wrappingAdd (s.slots (KeyData.idx guard.key)).refCount 1 = count
      dsimp only
      split
      · exact going _ trivial
      · rw [pc_unwind_self]
        trivial
  | began op pc calls starts => exact going _ starts.steady
  | returned res => exact going _ res.steady_rest
  | _ => exact going _ trivial

variable [Fintype T]

/-- What the activities of a single thread have loaded is up to date, by induction on the run. -/
theorem Sequential.steady (sequential : Sequential dbg s) (t : T) : (s.pc t).Steady s := by
  induction sequential generalizing t with
  | refl => trivial
  | tail _ last ih =>
      obtain ⟨actor, choice, _, only, found, _⟩ := last
      have moves := step_moves found
      by_cases self : t = actor
      · exact self ▸ moves.steady (ih actor)
      · apply Pc.steady_of_waits
        rw [moves.others t self]
        exact only t self

omit [Key K] [DecidableEq T] [Fintype T] in
theorem Only.alone (only : s.Only t) : s.Alone t :=
  fun other apart => Pc.suspended_of_waits (only other apart)

omit [DecidableEq T] [Fintype T] in
/-- With words that are up to date and room for slots and references, a step stays within the
limits.
-/
theorem Bounded.within (bounded : s.Bounded) (steady : (s.pc t).Steady s) : s.Within t where
  tag := by
    intro old next seen about _
    rw [about] at steady
    rw [steady.2, Nat.sub_self]
    exact Nat.two_pow_pos 32
  room := fun _ => bounded.room
  clone := fun guard _ => Nat.le_of_lt (bounded.references _)

/-- A single thread stays within the limits, by induction on the run. -/
theorem Sequential.solo (sequential : Sequential dbg s) : Solo dbg s := by
  induction sequential with
  | refl => exact .refl
  | tail earlier last ih =>
      obtain ⟨t, choice, bounded, only, found, awake⟩ := last
      have within := bounded.within (Sequential.steady earlier t)
      exact .tail ih ⟨t, choice, within, only.alone, found, awake⟩

/-- The check that there is room for one more slot, and for one more reference to every slot. -/
def bounded? (s : Sys T K V E) : Bool :=
  s.len + 1 < 2 ^ 32
  && (List.range s.len).all fun idx => (s.slots idx).refCount < MAX_REFCOUNT

/-- The check decides the bounds: slots beyond the length have no references. -/
theorem Inv.bounded {free : List Nat} (inv : s.Inv free) (checked : s.bounded? = true)
    : s.Bounded := by
  rw [bounded?, Bool.and_eq_true, decide_eq_true_eq] at checked
  refine ⟨checked.1, fun idx => ?_⟩
  by_cases within : idx < s.len
  · exact of_decide_eq_true (List.all_eq_true.mp checked.2 idx (List.mem_range.mpr within))
  · have fits := inv.owned.slots idx
    rw [(inv.owned.born idx).mpr (Nat.le_of_not_lt within)] at fits
    have zero : (s.slots idx).refCount = 0 := fits.2.1
    rw [zero]
    decide

/-- A schedule of a single thread that never meets an unwinding activity, by induction on the
run.
-/
theorem Sequential.of_run {schedule : List (T × Choice K V E)}
    (found
      : runIf (fun s t => (s.bounded? && decide (s.Only t)) && s.calm?) dbg
          (.withKey T K V E) schedule
        = some s)
    (calm : s.calm? = true)
    : Sequential dbg s := by
  have run := (awake_of_runIf found calm).2
  clear found calm
  induction run with
  | refl => exact .refl
  | tail _ last ih =>
      obtain ⟨t, choice, checked, step, awake⟩ := last
      rw [Bool.and_eq_true] at checked
      obtain ⟨free, inv⟩ := (Sequential.solo ih).calm.reachable.inv
      exact .tail ih
        ⟨t, choice, inv.bounded checked.1, of_decide_eq_true checked.2, step, awake⟩

end Sys

end AtomicSlotMap
