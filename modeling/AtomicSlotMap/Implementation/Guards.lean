import AtomicSlotMap.Implementation.Moves

/-! What a step does to the guards that users hold, and to the calls that activities execute. -/

namespace AtomicSlotMap

variable {T K V E : Type} [Key K]

/-- Whether an activity is not in the map: between two calls, or about to leave one. -/
def Pc.settled : Pc K V E → Bool
  | .idle | .iterating _ | .ret _ | .unwinding => true
  | _ => false

namespace Sys

variable [DecidableEq T] {dbg : Bool} {s s' : Sys T K V E} {t : T} {choice : Choice K V E}

-----------------------------------------------------------------------------------------
-- Guards
-----------------------------------------------------------------------------------------

/-- What a step does to the guards. -/
inductive Hands (s : Sys T K V E) (t : T) (s' : Sys T K V E) : Prop
  | kept (guards : s'.guards = s.guards) (forgotten : s'.forgotten = s.forgotten)
    (guardIds : s'.guardIds = s.guardIds)
  | made (guard : Guard K V) (guards : s'.guards = guard :: s.guards)
    (forgotten : s'.forgotten = s.forgotten) (guardIds : s'.guardIds = s.guardIds + 1)
    (id : guard.id = s.guardIds)
    (source
      : ((∃ getter, s.pc t = .acquireVersion guard.key getter ∧ guard.owning = getter.owning)
          ∧ (s.slots (KeyData.idx guard.key)).version = KeyData.version guard.key)
        ∨ ∃ cloned,
            s.pc t = .cloneInc cloned
            ∧ cloned.key = guard.key
            ∧ guard.owning = true
            ∧ (s.slots (KeyData.idx cloned.key)).refCount ≤ MAX_REFCOUNT)
  | dropping (id : Nat) (guard : Guard K V) (calls : (s.pc t).Calls (.dropGuard id : Op K))
    (found : s.guards.find? (·.id == id) = some guard)
    (guards : s'.guards = s.guards.eraseP (·.id == id)) (forgotten : s'.forgotten = s.forgotten)
    (guardIds : s'.guardIds = s.guardIds)
    (goes : s'.pc t = .waitForChunk (KeyData.idx guard.key) (.unguardDec guard))
    (began : s'.current t = some (s.calls, .dropGuard id))
  | forgot (id : Nat) (guard : Guard K V) (calls : (s.pc t).Calls (.forgetGuard id : Op K))
    (found : s.guards.find? (·.id == id) = some guard)
    (guards : s'.guards = s.guards.eraseP (·.id == id))
    (forgotten : s'.forgotten = guard :: s.forgotten) (guardIds : s'.guardIds = s.guardIds)
    (goes : s'.pc t = .ret .done) (began : s'.current t = some (s.calls, .forgetGuard id))

omit [DecidableEq T] in
theorem Hands.of_alike {staged : Sys T K V E} (alike : staged.Alike s')
    (guards : staged.guards = s.guards) (forgotten : staged.forgotten = s.forgotten)
    (guardIds : staged.guardIds = s.guardIds)
    : s.Hands t s' :=
  .kept (alike.guards.trans guards) (alike.forgotten.trans forgotten)
    (alike.guardIds.trans guardIds)

/-- Guards are made by lookups and clones, and users drop or forget them; by cases on the move. -/
theorem Moves.hands (moves : s.Moves dbg t s') : s.Hands t s' := by
  cases moves with
  | stay | go | popped | pushed | wrote | armed | allocated | installed | deallocated | linked
  | recycled | dropped | acquired | began | counted | discounted => exact .kept rfl rfl rfl
  | answered | published | beganReserve | beganDeref => exact .of_alike (alike_answer_goto _ t _ _) rfl rfl rfl
  | returned | unwound => exact .of_alike (alike_finish_goto s t _ _) rfl rfl rfl
  | failed | dropPanicked => exact .of_alike (alike_unwind _ t) rfl rfl rfl
  | retired key current about same =>
      rw [removeExchange, if_pos same]
      exact .of_alike (alike_answer_goto _ t _ _) rfl rfl rfl
  | decremented =>
      rw [decRefCount]
      split <;> exact .kept rfl rfl rfl
  | guarded key getter about same =>
      simp only [acquireCheck, if_pos same]
      rw [answer_eq]
      exact .made _ rfl rfl rfl rfl (Or.inl ⟨⟨getter, about, rfl⟩, same⟩)
  | cloned guard about =>
      rw [cloneGuard]
      generalize wrappingAdd (s.slots (KeyData.idx guard.key)).refCount 1 = count
      dsimp only
      split
      · next room =>
        rw [answer_eq]
        exact .made _ rfl rfl rfl rfl (Or.inr ⟨guard, about, rfl, rfl, room⟩)
      · exact .of_alike (alike_unwind _ t) rfl rfl rfl
  | beganDrop id guard calls found =>
      rw [answer_eq]
      exact .dropping id guard calls found rfl rfl rfl (pc_goto_self _ t _)
        (Function.update_self ..)
  | beganForget id guard calls found =>
      rw [answer_eq]
      exact .forgot id guard calls found rfl rfl rfl (pc_goto_self _ t _)
        (Function.update_self ..)

omit [DecidableEq T] in
theorem Hands.guardIds_le (hands : s.Hands t s') : s.guardIds ≤ s'.guardIds := by
  cases hands with
  | kept _ _ guardIds => exact Nat.le_of_eq guardIds.symm
  | made _ _ _ guardIds => exact Nat.le_of_lt (guardIds ▸ Nat.lt_succ_self _)
  | dropping _ _ _ _ _ _ guardIds => exact Nat.le_of_eq guardIds.symm
  | forgot _ _ _ _ _ _ guardIds => exact Nat.le_of_eq guardIds.symm

-----------------------------------------------------------------------------------------
-- Calls
-----------------------------------------------------------------------------------------

/-- The calls of the others go on. -/
theorem Moves.current_of_ne (moves : s.Moves dbg t s') {other : T} (apart : other ≠ t)
    : s'.current other = s.current other := by
  have began (op : Op K) : (s.begin t op).current other = s.current other :=
    Function.update_of_ne apart _ _
  cases moves with
  | stay | go | popped | pushed | wrote | armed | allocated | installed | deallocated | linked
  | recycled | dropped | acquired | counted | discounted => rfl
  | began op => exact began op
  | answered | published => exact congrFun (current_answer _ t _) other
  | beganReserve | beganDeref => exact (congrFun (current_answer _ t _) other).trans (began _)
  | beganDrop | beganForget =>
      exact (congrFun (current_answer _ t _) other).trans (Function.update_of_ne apart _ _)
  | returned | unwound =>
      rw [finish]
      split
      · exact Function.update_of_ne apart _ _
      · rfl
  | failed | dropPanicked => exact congrFun (current_unwind _ t) other
  | retired key current about same =>
      rw [removeExchange, if_pos same]
      exact congrFun (current_answer _ t _) other
  | decremented =>
      rw [decRefCount]
      split <;> rfl
  | guarded key getter about same =>
      simp only [acquireCheck, if_pos same]
      exact congrFun (current_answer _ t _) other
  | cloned guard about =>
      rw [cloneGuard]
      split
      · exact congrFun (current_answer _ t _) other
      · exact congrFun (current_unwind _ t) other

/-- An activity goes on with its call, ends it or makes the next one, by cases on the move. -/
theorem Moves.calling (moves : s.Moves dbg t s')
    : s'.calls = s.calls
        ∧ (s'.current t = s.current t ∨ (s.pc t).settled = true ∧ s'.current t = none)
      ∨ s'.calls = s.calls + 1 ∧ ∃ op, (s.pc t).Calls op ∧ s'.current t = some (s.calls, op) := by
  have answering (staged : Sys T K V E) (res : Res K V E) (pc : Pc K V E) :
      ((staged.answer t res).goto t pc).calls = staged.calls
        ∧ ((staged.answer t res).goto t pc).current t = staged.current t :=
    ⟨calls_answer staged t res, congrFun (current_answer staged t res) t⟩
  have making (staged : Sys T K V E) (op : Op K) :
      (staged.begin t op).current t = some (staged.calls, op) :=
    Function.update_self ..
  cases moves with
  | stay | go | popped | pushed | wrote | armed | allocated | installed | deallocated | linked
  | recycled | dropped | acquired | counted | discounted => exact Or.inl ⟨rfl, Or.inl rfl⟩
  | answered | published => exact Or.inl ((answering _ _ _).imp_right Or.inl)
  | failed | dropPanicked =>
      exact Or.inl ⟨calls_unwind _ t, Or.inl (congrFun (current_unwind _ t) t)⟩
  | began op pc calls => exact Or.inr ⟨rfl, op, calls, making s op⟩
  | beganReserve additional calls | beganDeref id guard calls | beganDrop id guard calls
  | beganForget id guard calls =>
      exact Or.inr ⟨(answering _ _ _).1, _, calls, (answering _ _ _).2.trans (making _ _)⟩
  | returned res about | unwound about =>
      rw [finish]
      split
      · exact Or.inl ⟨rfl, Or.inr ⟨about ▸ rfl, Function.update_self ..⟩⟩
      · exact Or.inl ⟨rfl, Or.inl rfl⟩
  | retired key current about same =>
      rw [removeExchange, if_pos same]
      exact Or.inl ((answering _ _ _).imp_right Or.inl)
  | decremented =>
      rw [decRefCount]
      split <;> exact Or.inl ⟨rfl, Or.inl rfl⟩
  | guarded key getter about same =>
      simp only [acquireCheck, if_pos same]
      exact Or.inl ((answering _ _ _).imp_right Or.inl)
  | cloned guard about =>
      rw [cloneGuard]
      split
      · exact Or.inl ((answering _ _ _).imp_right Or.inl)
      · exact Or.inl ⟨calls_unwind _ t, Or.inl (congrFun (current_unwind _ t) t)⟩

/-- An activity in the map goes on with its call. -/
theorem Moves.current_of_working (moves : s.Moves dbg t s') (working : (s.pc t).settled = false)
    : s'.current t = s.current t := by
  rcases moves.calling with ⟨_, same | ⟨settled, _⟩⟩ | ⟨_, op, calls, _⟩
  · exact same
  · cases settled.symm.trans working
  · rcases calls with ⟨about, _⟩ | ⟨_, about, _⟩ <;>
      · rw [about] at working
        cases working

variable [Fintype T]

/-- A call names its operation, by cases on the operation. -/
theorem current_of_call {op : Op K} (found : s.call t op = some s')
    : s'.current t = some (s.calls, op) := by
  have answered (staged : Sys T K V E) (res : Res K V E) (pc : Pc K V E)
      (current : staged.current t = some (s.calls, op)) :
      ((staged.answer t res).goto t pc).current t = some (s.calls, op) :=
    (congrFun (current_answer _ t _) t).trans current
  cases op with
  | dropGuard id | forgetGuard id =>
      rw [call] at found
      split at found
      · cases found
      · obtain ⟨_, _, rfl⟩ := Option.map_eq_some_iff.mp found
        exact answered _ _ _ (Function.update_self ..)
  | cloneGuard id =>
      obtain ⟨guard, _, rfl⟩ := Option.map_eq_some_iff.mp found
      exact Function.update_self ..
  | derefGuard id =>
      obtain ⟨guard, _, rfl⟩ := Option.map_eq_some_iff.mp found
      exact answered _ _ _ (Function.update_self ..)
  | reserve additional =>
      cases found
      exact answered _ _ _ (Function.update_self ..)
  | _ =>
      cases found
      exact Function.update_self ..

/-- An activity at rest that is in a call after its step has made that call. -/
theorem eq_call_of_began {op : Op K} (found : step dbg s t choice = some s')
    (calls : (s.pc t).Calls op) (began : s'.current t = some (s.calls, op))
    (busy : s'.pc t ≠ .idle ∧ s'.pc t ≠ .iterating 0)
    : choice = .call op := by
  have made {other : Op K} (found : s.call t other = some s') : other = op := by
    have current := current_of_call found
    rw [began] at current
    cases current
    rfl
  rcases calls with ⟨about, _⟩ | ⟨currentIdx, about, _⟩
  · simp only [step, about] at found
    cases choice with
    | call other => rw [made (Option.ite_none_left_eq_some.mp found).2]
    | iterate =>
        cases found
        exact absurd (pc_goto_self _ t _) busy.2
    | _ => cases found
  · simp only [step, about] at found
    cases choice with
    | call other => rw [made (Option.ite_none_right_eq_some.mp found).2]
    | endIterate =>
        cases found
        exact absurd (pc_goto_self _ t _) busy.1
    | _ => cases found

end Sys

end AtomicSlotMap
