import AtomicSlotMap.History.Records
import AtomicSlotMap.Ownership.View

/-! Locals of every run, even beyond the limits of the words: indices and versions fit in a
word, and inserters and removers have odd versions.
-/

namespace AtomicSlotMap

variable {T K V E : Type} [Key K]

/-- A pushed index fits in a word. -/
def AfterEnsure.WellFormed : AfterEnsure → Prop
  | .pushed idx => idx < 2 ^ 32
  | .reserving _ _ => True

/-- The locals of a program counter are words; an inserter has an odd version, a remover that
of its key, and the exclusive owner of a slot asserts so only while the slot has no value.
-/
def Pc.WellFormed : Pc K V E → Prop
  | .waitForChunk _ next => next.WellFormed
  | .assertRefCount idx next | .assertVersion idx next =>
      next.role.vacant idx ∧ next.WellFormed
  | .insertVersion idx => idx < 2 ^ 32
  | .closure idx version | .insertWrite idx version _ | .insertRefCount idx version _
  | .insertPublish idx version _ => idx < 2 ^ 32 ∧ version < 2 ^ 32 ∧ version % 2 = 1
  | .ensureLoad _ after | .ensureAlloc _ after | .ensureCas _ _ after
  | .ensureDealloc _ after => after.WellFormed
  | .removeCas key current => current = KeyData.version key
  | _ => True

/-- All locals are well formed, and the length and the versions are words. -/
structure Sys.WellFormed (s : Sys T K V E) : Prop where
  locals : ∀ t, (s.pc t).WellFormed
  len : s.len < 2 ^ 32
  versions : ∀ idx, (s.slots idx).version < 2 ^ 32

section

variable {dbg : Bool} {s : Sys T K V E} {pc pc' : Pc K V E} {op : Op K} {res : Res K V E}

theorem Getter.wellFormed_missed (getter : Getter)
    : (getter.missed : Pc K V E).WellFormed := by
  cases getter <;> trivial

theorem AfterPush.wellFormed_resume (after : AfterPush K E)
    : (after.resume : Pc K V E).WellFormed := by
  cases after with
  | missed getter => exact getter.wellFormed_missed
  | _ => trivial

theorem AfterEnsure.wellFormed_resume {after : AfterEnsure} (wellFormed : after.WellFormed)
    : (after.resume : Pc K V E).WellFormed := by
  cases after with
  | pushed idx => exact ⟨wellFormed, by decide, by decide⟩
  | reserving chunk maxChunk =>
      simp only [AfterEnsure.resume]
      split <;> trivial

theorem Pc.wellFormed_exclusivelyOwned {idx : Nat} (next : Pc K V E)
    (wellFormed : next.WellFormed) (vacant : next.role.vacant idx)
    : (Pc.exclusivelyOwned dbg idx next).WellFormed := by
  cases dbg with
  | false => exact wellFormed
  | true => exact ⟨vacant, vacant, wellFormed⟩

theorem Pc.wellFormed_pushFreeIndex {idx : Nat} {after : AfterPush K E}
    : (Pc.pushFreeIndex dbg idx after : Pc K V E).WellFormed :=
  Pc.wellFormed_exclusivelyOwned (.pushLoad idx after) trivial after.vacant_role

theorem Pc.wellFormed_popLoop {head updates : Nat}
    : (Pc.popLoop head updates : Pc K V E).WellFormed := by
  rw [Pc.popLoop]
  split <;> trivial

/-- A move of a program counter leads to well-formed locals, by cases on the move. -/
theorem Pc.Goes.wellFormed (goes : pc.Goes dbg s pc') (wellFormed : pc.WellFormed)
    (versions : ∀ idx, (s.slots idx).version < 2 ^ 32)
    : pc'.WellFormed := by
  cases goes with
  | arrived idx next present => exact wellFormed
  | unreferenced idx next zero => exact wellFormed.2
  | unoccupied idx next even => exact wellFormed.2
  | popLoad | popAgain => exact Pc.wellFormed_popLoop
  | insertVersion idx => exact ⟨wellFormed, or_one_lt (versions idx), or_one_odd _⟩
  | closureOk idx version value =>
      exact Pc.wellFormed_exclusivelyOwned (.insertWrite idx version value) wellFormed rfl
  | ensurePresent chunk after present => exact AfterEnsure.wellFormed_resume wellFormed
  | ensureAbsent chunk after absent => exact wellFormed
  | allocNull chunk after => exact wellFormed
  | installedElsewhere chunk new after present => exact wellFormed
  | removeCurrent key same => exact rfl
  | removeAgain key current same => exact rfl
  | _ => trivial

theorem Pc.Answers.wellFormed (answers : pc.Answers dbg s res pc') : pc'.WellFormed := by
  cases answers with
  | closureErr idx version err => exact Pc.wellFormed_pushFreeIndex
  | _ => trivial

theorem Op.Starts.wellFormed (starts : op.Starts s pc) : pc.WellFormed := by
  cases starts <;> trivial

theorem Pc.Decrements.wellFormed {needsDrop otherwise : Pc K V E} {idx : Nat}
    (decrements : pc.Decrements idx needsDrop otherwise)
    : needsDrop.WellFormed ∧ otherwise.WellFormed := by
  cases decrements with
  | acquire key getter => exact ⟨trivial, getter.wellFormed_missed⟩
  | _ => exact ⟨trivial, trivial⟩

end

namespace Sys

variable [DecidableEq T] {dbg : Bool} {s s' : Sys T K V E} {t : T}

omit [DecidableEq T] in
theorem WellFormed.withKey : (Sys.withKey T K V E).WellFormed where
  locals := fun _ => trivial
  len := by
    show 0 < 2 ^ 32
    decide
  versions := fun _ => by
    show 0 < 2 ^ 32
    decide

omit [Key K] in
/-- A panic hands out no index. -/
theorem handedOut_unwind (s : Sys T K V E) (t : T)
    : handedOut (s.unwind t).trace = handedOut s.trace := by
  rw [unwind]
  split <;> rfl

/-- Only `push_zeroed` changes the length and hands out an index, by cases on the move. -/
theorem Moves.pushes (moves : s.Moves dbg t s')
    : (s'.len = s.len ∧ handedOut s'.trace = handedOut s.trace)
      ∨ (s.pc t = .pushZeroed ∧ s' = s.pushZeroed t) := by
  cases moves with
  | stay | go | popped | wrote | armed | allocated | installed | deallocated | linked
  | recycled | dropped | acquired | began | counted | discounted => exact Or.inl ⟨rfl, rfl⟩
  | pushed about => exact Or.inr ⟨about, rfl⟩
  | answered | beganReserve | beganDeref | beganDrop | beganForget =>
      exact Or.inl ⟨(alike_answer _ t _).len, congrArg handedOut (trace_answer _ t _)⟩
  | published =>
      refine Or.inl ⟨(alike_answer _ t _).len, ?_⟩
      rw [trace_publish]
      rfl
  | returned | unwound =>
      exact Or.inl ⟨(alike_finish s t _).len, congrArg handedOut (trace_finish s t _)⟩
  | failed => exact Or.inl ⟨(alike_unwind s t).len, handedOut_unwind s t⟩
  | dropPanicked idx =>
      exact Or.inl ⟨(alike_unwind _ t).len, handedOut_unwind (s.dropInnerValue t idx) t⟩
  | retired key current about same =>
      refine Or.inl ⟨?_, ?_⟩
      · simp only [removeExchange, if_pos same]
        exact (alike_answer _ t _).len
      · rw [trace_removeExchange s t same]
        rfl
  | decremented =>
      left
      rw [decRefCount]
      split <;> exact ⟨rfl, rfl⟩
  | guarded key getter about same =>
      simp only [acquireCheck, if_pos same]
      exact Or.inl ⟨(alike_answer _ t _).len, congrArg handedOut (trace_answer _ t _)⟩
  | cloned guard about =>
      left
      rw [cloneGuard]
      generalize wrappingAdd (s.slots (KeyData.idx guard.key)).refCount 1 = count
      dsimp only
      split
      · exact ⟨(alike_answer _ t _).len, congrArg handedOut (trace_answer _ t _)⟩
      · exact ⟨(alike_unwind _ t).len, handedOut_unwind (s.setSlot _ _) t⟩

/-- A step leads to well-formed locals, by cases on where it leads. -/
theorem WellFormed.mine (wellFormed : s.WellFormed) (moves : s.Moves dbg t s')
    : (s'.pc t).WellFormed := by
  have before := wellFormed.locals t
  have leads := moves.leads
  generalize s'.pc t = pc at leads ⊢
  cases leads with
  | stay => exact before
  | go pc goes => exact goes.wellFormed before wellFormed.versions
  | answered res pc answers => exact answers.wellFormed
  | popped old next seen about =>
      refine Pc.wellFormed_exclusivelyOwned (.waitForChunk _ (.insertVersion _)) ?_ rfl
      show (unpackFreeHead old).2 < 2 ^ 32
      simp only [unpackFreeHead]
      omega
  | pushed about => exact wellFormed.len
  | wrote idx version stored about | armed idx version stored about
  | allocated chunk buffer after about =>
      rw [about] at before
      exact before
  | ensured after about =>
      rcases about with ⟨_, _, about⟩ | ⟨_, about⟩
      all_goals
        rw [about] at before
        exact AfterEnsure.wellFormed_resume before
  | recycled idx old after => exact after.wellFormed_resume
  | dropped => exact Pc.wellFormed_pushFreeIndex
  | released idx needsDrop otherwise decrements => exact decrements.wellFormed.1
  | gaveUp idx needsDrop otherwise decrements => exact decrements.wellFormed.2
  | began op pc calls starts => exact starts.wellFormed
  | returned res => cases res <;> trivial
  | _ => trivial

/-- Every step keeps everything well formed. -/
theorem WellFormed.moves (wellFormed : s.WellFormed) (moves : s.Moves dbg t s')
    : s'.WellFormed where
  locals := by
    intro other
    by_cases self : other = t
    · subst other
      exact wellFormed.mine moves
    · rw [moves.others other self]
      exact wellFormed.locals other
  len := by
    rcases moves.pushes with ⟨same, _⟩ | ⟨_, rfl⟩
    · rw [same]
      exact wellFormed.len
    · show wrappingAdd s.len 1 < 2 ^ 32
      simp only [wrappingAdd]
      omega
  versions := by
    intro idx
    rcases moves.records.versions with same | ⟨place, version, stored, about, rfl⟩
      | ⟨key, current, about, current', rfl⟩
    · rw [same]
      exact wellFormed.versions idx
    · have before := wellFormed.locals t
      rw [about] at before
      rw [slots_publish]
      by_cases here : idx = place
      · subst idx
        rw [Function.update_self]
        exact before.2.1
      · rw [Function.update_of_ne here]
        exact wellFormed.versions idx
    · rw [slots_removeExchange s t current']
      by_cases here : idx = KeyData.idx key
      · subst idx
        rw [Function.update_self]
        show wrappingAdd current 1 < 2 ^ 32
        simp only [wrappingAdd]
        omega
      · rw [Function.update_of_ne here]
        exact wellFormed.versions idx

/-- Every state of a run is well formed, by induction on the run. -/
theorem wellFormed_of_run [Fintype T]
    (run : Relation.ReflTransGen (Step dbg) (.withKey T K V E) s)
    : s.WellFormed :=
  Library.ReflTransGen.invariant run .withKey fun _ _ wellFormed ⟨_, _, found⟩ =>
    wellFormed.moves (step_moves found)

end Sys

end AtomicSlotMap
