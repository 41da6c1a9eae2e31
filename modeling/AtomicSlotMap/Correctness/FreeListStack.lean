import AtomicSlotMap.Library.TaggedStack
import AtomicSlotMap.Implementation.Turns
import AtomicSlotMap.Correctness.FullMap

/-! The free list is a linearizable stack. `pop_free_index` and `push_free_index` are the calls of
a stack with a tagged head, as long as only owned indices are pushed and the tag does not go
round within a pop.
-/

namespace AtomicSlotMap

variable {T K V E : Type} [Key K]

open Library (StackOp StackRes StackStep CallLog Behaves Linearization effects)
open Library.TaggedStack (Access State)

/-- Where an activity stands in `pop_free_index` or `push_free_index`. -/
def Pc.access : Pc K V E → Access Nat
  | .waitForChunk _ next | .assertRefCount _ next | .assertVersion _ next => next.access
  | .popLoad => .loading
  | .popNext old seen => .following (unpackFreeHead old) seen
  | .popCas old next seen => .popping (unpackFreeHead old) next seen
  | .pushLoad idx _ => .entering idx
  | .pushStore idx old _ => .linking idx (unpackFreeHead old)
  | .pushCas idx old _ => .pushing idx (unpackFreeHead old)
  | _ => .outside

/-- Whether a panic has left the call. -/
def Pc.unwinding? : Pc K V E → Bool
  | .unwinding => true
  | _ => false

namespace Sys

/-- The stack that the words of the free list and the program counters make. -/
def stack (s : Sys T K V E) : State T Nat where
  head := unpackFreeHead s.freeHead
  next := fun idx => (s.slots idx).nextFree
  access := fun t => (s.pc t).access
  updates := s.updates

/-- What a step of an activity tells about its calls of `pop_free_index` and `push_free_index`. -/
def stackLabel (s : Sys T K V E) (t : T) (s' : Sys T K V E)
    : Library.Label (StackOp Nat) (StackRes Nat) :=
  match (s.pc t).access.op?, (s'.pc t).access.op? with
  | none, some op => .called op
  | some _, none =>
      if (s'.pc t).unwinding? then .abandoned
      else .answered ((s.pc t).access.res (s'.updates != s.updates))
  | _, _ => .silent

/-- An index may be given to `push_free_index`: it is a proper one, it is not on the free list, and
no activity is pushing it already.
-/
structure Owned (s : Sys T K V E) (idx : Nat) : Prop where
  proper : idx < SENTINEL
  taken : ∀ free, s.FreeList free → idx ∉ free
  unpushed : ∀ u, (s.pc u).access.pushes ≠ some idx

/-- The words of the free list are as before. -/
structure Unlinked (s s' : Sys T K V E) : Prop where
  freeHead : s'.freeHead = s.freeHead
  updates : s'.updates = s.updates
  links : ∀ idx, (s'.slots idx).nextFree = (s.slots idx).nextFree

variable [DecidableEq T] [Fintype T]

/-- A step of an activity: one of the program or, outside of `pop_free_index` and
`push_free_index`, of any other caller of the two. Such a caller calls one of them or does
something that leaves the words of the free list alone.
-/
inductive Acts (dbg : Bool) (s : Sys T K V E) (t : T) (s' : Sys T K V E) : Prop
  | program (choice : Choice K V E) (found : step dbg s t choice = some s')
  | caller (unlinked : s.Unlinked s') (others : ∀ u ≠ t, s'.pc u = s.pc u)
    (outside : (s.pc t).access = .outside)
    (calls
      : (s'.pc t).access = .outside ∨ s'.pc t = .popLoad
        ∨ ∃ idx after, s'.pc t = .pushFreeIndex dbg idx after)

/-- The tag has not gone round since a pop that succeeds loaded it. -/
def Recent (s : Sys T K V E) (t : T) : Prop :=
  ∀ old next seen, s.pc t = .popCas old next seen → s.freeHead = old → s.updates - seen < 2 ^ 32

/-- The runs in which the tag does not go round within a pop and only owned indices are pushed,
with the history of the calls on the free list.
-/
inductive StackRun (dbg : Bool) : Sys T K V E → CallLog T (StackOp Nat) (StackRes Nat) → Prop
  | start : StackRun dbg (.withKey T K V E) .empty
  | step {s log t s'} (run : StackRun dbg s log) (acts : s.Acts dbg t s') (recent : s.Recent t)
    (owned : ∀ idx, s.stackLabel t s' = .called (.push idx) → s.Owned idx)
    : StackRun dbg s' (log.record t (s.stackLabel t s'))

end Sys

section

variable {dbg : Bool} {s : Sys T K V E} {pc pc' : Pc K V E}

omit [Key K] in
@[simp] theorem Pc.access_exclusivelyOwned (idx : Nat) (next : Pc K V E)
    : (Pc.exclusivelyOwned dbg idx next).access = next.access := by
  cases dbg <;> rfl

omit [Key K] in
@[simp] theorem Pc.access_pushFreeIndex (idx : Nat) (after : AfterPush K E)
    : (Pc.pushFreeIndex dbg idx after : Pc K V E).access = .entering idx := by
  cases dbg <;> rfl

omit [Key K] in
@[simp] theorem Getter.access_missed (getter : Getter)
    : (getter.missed : Pc K V E).access = .outside := by
  cases getter <;> rfl

omit [Key K] in
@[simp] theorem AfterPush.access_resume (after : AfterPush K E)
    : (after.resume : Pc K V E).access = .outside := by
  cases after <;> simp [AfterPush.resume, Pc.access]

omit [Key K] in
@[simp] theorem AfterEnsure.access_resume (after : AfterEnsure)
    : (after.resume : Pc K V E).access = .outside := by
  cases after with
  | pushed idx => rfl
  | reserving chunk maxChunk =>
      simp only [AfterEnsure.resume]
      split <;> rfl

omit [Key K] in
/-- Whoever pushes an index holds its slot; by induction on the waits before the push. -/
theorem Pc.holds_of_pushes {idx : Nat} (pushes : pc.access.pushes = some idx)
    : pc.holds = some idx := by
  induction pc with
  | waitForChunk _ next ih | assertRefCount _ next ih | assertVersion _ next ih => exact ih pushes
  | pushLoad | pushStore | pushCas =>
      cases pushes
      rfl
  | _ => cases pushes

omit [Key K] in
@[simp] theorem Res.access_rest (res : Res K V E) : res.rest.access = .outside := by
  cases res <;> rfl

/-- The steps of an activity that leave the words of the free list alone. -/
inductive Pc.Walks (s : Sys T K V E) (pc pc' : Pc K V E) : Prop
  | same (access : pc'.access = pc.access)
  | called (before : pc.access = .outside) (after : pc'.access = .loading)
  | looped (before : pc.access.op? = some .pop) (after : pc' = .popLoop s.freeHead s.updates)
  | followed (old seen : Nat) (before : pc = .popNext old seen)
    (after : pc' = .popCas old (s.slots (unpackFreeHead old).2).nextFree seen)
  | entered (idx : Nat) (before : pc.access = .outside) (after : pc'.access = .entering idx)
  | read (idx : Nat) (before : pc.access.pushes = some idx)
    (after : pc'.access = .linking idx (unpackFreeHead s.freeHead))
  | unwound (after : pc' = .unwinding)

theorem Pc.Goes.walks (goes : pc.Goes dbg s pc') : pc.Walks s pc' := by
  cases goes with
  | popLoad | popAgain => exact .looped rfl rfl
  | popNext old seen => exact .followed old seen rfl rfl
  | pushLoad idx | pushAgain idx => exact .read idx rfl rfl
  | closureOk | ensurePresent => exact .same (by simp [Pc.access])
  | _ => exact .same rfl

theorem Pc.Answers.walks {res : Res K V E} (answers : pc.Answers dbg s res pc')
    : pc.Walks s pc' := by
  cases answers with
  | closureErr idx => exact .entered idx rfl (by simp)
  | _ => exact .same rfl

theorem Op.Starts.walks {op : Op K} (starts : op.Starts s pc') (calls : pc.Calls op)
    : pc.Walks s pc' := by
  have outside : pc.access = .outside := by
    rcases calls with ⟨rfl, _⟩ | ⟨_, rfl, _⟩ <;> rfl
  cases starts with
  | tryInsertWithKey => exact .called outside rfl
  | _ => exact .same outside.symm

theorem Pc.Decrements.walks {needsDrop otherwise : Pc K V E} {idx : Nat}
    (decrements : pc.Decrements idx needsDrop otherwise)
    : pc.Walks s needsDrop ∧ pc.Walks s otherwise := by
  cases decrements with
  | acquire key getter => exact ⟨.same rfl, .same (by simp [Pc.access])⟩
  | _ => exact ⟨.same rfl, .same rfl⟩

omit [Key K] in
theorem Pc.Calls.access {op : Op K} (calls : pc.Calls op) : pc.access = .outside := by
  rcases calls with ⟨rfl, _⟩ | ⟨_, rfl, _⟩ <;> rfl

end

namespace Sys

variable [DecidableEq T] {dbg : Bool} {s s' : Sys T K V E} {t : T}

/-- What a step does to the free list. -/
inductive Stacks (dbg : Bool) (s : Sys T K V E) (t : T) : Sys T K V E → Prop
  | walked (s' : Sys T K V E) (unlinked : s.Unlinked s') (walks : (s.pc t).Walks s (s'.pc t))
    : Stacks dbg s t s'
  | popped (old next seen : Nat) (about : s.pc t = .popCas old next seen)
    (same : s.freeHead = old)
    : Stacks dbg s t (s.popExchange dbg t old next)
  | linked (idx old : Nat) (after : AfterPush K E) (about : s.pc t = .pushStore idx old after)
    : Stacks dbg s t
        ((s.setSlot idx { s.slots idx with nextFree := (unpackFreeHead old).2 }).goto t
          (.pushCas idx old after))
  | recycled (idx old : Nat) (after : AfterPush K E) (about : s.pc t = .pushCas idx old after)
    (same : s.freeHead = old)
    : Stacks dbg s t (s.pushExchange t idx old after)

omit [Key K] [DecidableEq T] in
theorem Unlinked.of_same (slots : s'.slots = s.slots) (freeHead : s'.freeHead = s.freeHead)
    (updates : s'.updates = s.updates)
    : s.Unlinked s' :=
  ⟨freeHead, updates, fun _ => by rw [slots]⟩

omit [Key K] [DecidableEq T] in
theorem Unlinked.of_slot {idx : Nat} {slot : Slot V}
    (slots : s'.slots = Function.update s.slots idx slot)
    (link : slot.nextFree = (s.slots idx).nextFree) (freeHead : s'.freeHead = s.freeHead)
    (updates : s'.updates = s.updates)
    : s.Unlinked s' := by
  refine ⟨freeHead, updates, fun other => ?_⟩
  rw [slots]
  by_cases same : other = idx
  · subst other
    rw [Function.update_self, link]
  · rw [Function.update_of_ne same]

omit [Key K] [DecidableEq T] in
theorem Unlinked.alike {staged : Sys T K V E} (unlinked : s.Unlinked staged)
    (alike : staged.Alike s')
    : s.Unlinked s' :=
  ⟨alike.freeHead.trans unlinked.freeHead, alike.updates.trans unlinked.updates,
    fun idx => by rw [alike.slots, unlinked.links]⟩

omit [Key K] in
/-- Going somewhere leaves the free list alone. -/
theorem Stacks.walking {staged : Sys T K V E} {pc : Pc K V E} (unlinked : s.Unlinked staged)
    (walks : (s.pc t).Walks s pc)
    : s.Stacks dbg t (staged.goto t pc) := by
  refine .walked _ ⟨unlinked.freeHead, unlinked.updates, unlinked.links⟩ ?_
  rw [pc_goto_self]
  exact walks

omit [Key K] in
/-- A panic leaves it alone. -/
theorem Stacks.unwinding {staged : Sys T K V E} (unlinked : s.Unlinked staged)
    : s.Stacks dbg t (staged.unwind t) :=
  .walked _ (unlinked.alike (alike_unwind staged t)) (.unwound (pc_unwind_self staged t))

omit [Key K] in
/-- An answer leaves it alone, wherever the activity goes then. -/
theorem Stacks.answering {staged : Sys T K V E} {res : Res K V E} {pc : Pc K V E}
    (unlinked : s.Unlinked staged) (walks : (s.pc t).Walks s pc)
    : s.Stacks dbg t ((staged.answer t res).goto t pc) :=
  .walking (unlinked.alike (alike_answer staged t res)) walks

/-- Only three moves write to the words of the free list, by cases on the move. -/
theorem Moves.stacks (moves : s.Moves dbg t s') : s.Stacks dbg t s' := by
  have same : s.Unlinked s := .of_same rfl rfl rfl
  cases moves with
  | stay => exact .walked s same (.same rfl)
  | go pc goes => exact .walking same goes.walks
  | answered res pc answers => exact .answering same answers.walks
  | failed => exact .unwinding same
  | popped old next seen about same => exact .popped old next seen about same
  | linked idx old after about => exact .linked idx old after about
  | recycled idx old after about same => exact .recycled idx old after about same
  | pushed about =>
      rw [pushZeroed]
      generalize wrappingAdd s.len 1 = len
      exact .walking (.of_same rfl rfl rfl) (.same (by rw [about]; rfl))
  | wrote idx version value about =>
      exact .walking (.of_slot rfl rfl rfl rfl) (.same (by rw [about]; rfl))
  | armed idx version stored about =>
      exact .walking (.of_slot rfl rfl rfl rfl) (.same (by rw [about]; rfl))
  | published idx version stored about =>
      exact .answering (.of_slot rfl rfl rfl rfl) (.same (by rw [about]; rfl))
  | allocated _ _ about | counted _ _ about | discounted _ about =>
      exact .walking (.of_same rfl rfl rfl) (.same (by rw [about]; rfl))
  | installed chunk new after about | deallocated new after about =>
      exact .walking (.of_same rfl rfl rfl) (.same (by rw [about]; simp [Pc.access]))
  | dropped idx after about =>
      exact .walking (.of_slot rfl rfl rfl rfl) (.entered idx (by rw [about]; rfl) (by simp))
  | dropPanicked idx after about => exact .unwinding (.of_slot rfl rfl rfl rfl)
  | retired key current about current' =>
      rw [removeExchange, if_pos current']
      generalize wrappingAdd current 1 = version
      exact .answering (.of_slot rfl rfl rfl rfl) (.same (by rw [about]; rfl))
  | decremented idx needsDrop otherwise decrements =>
      rw [decRefCount]
      generalize wrappingSub (s.slots idx).refCount 1 = count
      split
      · exact .walking (.of_slot rfl rfl rfl rfl) decrements.walks.1
      · exact .walking (.of_slot rfl rfl rfl rfl) decrements.walks.2
  | acquired key getter refcount about =>
      exact .walking (.of_slot rfl rfl rfl rfl) (.same (by rw [about]; rfl))
  | guarded key getter about current =>
      simp only [acquireCheck, if_pos current]
      exact .answering (.of_same rfl rfl rfl) (.same (by rw [about]; rfl))
  | cloned guard about =>
      rw [cloneGuard]
      generalize wrappingAdd (s.slots (KeyData.idx guard.key)).refCount 1 = count
      dsimp only
      split
      · exact .answering (.of_slot rfl rfl rfl rfl) (.same (by rw [about]; rfl))
      · exact .unwinding (.of_slot rfl rfl rfl rfl)
  | began op pc calls starts => exact .walking (.of_same rfl rfl rfl) (starts.walks calls)
  | beganReserve additional calls | beganDeref id guard calls found
  | beganDrop id guard calls found unborrowed | beganForget id guard calls found unborrowed =>
      exact .answering (.of_same rfl rfl rfl) (.same calls.access.symm)
  | returned res about =>
      exact .walking (same.alike (alike_finish s t _)) (.same (by rw [about]; simp [Pc.access]))
  | unwound about =>
      exact .walking (same.alike (alike_finish s t _)) (.same (by rw [about]; rfl))

/-- Other callers do not write to the words either. -/
theorem Acts.stacks [Fintype T] (acts : s.Acts dbg t s')
    : s.Stacks dbg t s' ∧ ∀ u ≠ t, s'.pc u = s.pc u := by
  cases acts with
  | program choice found =>
      have moves := step_moves found
      exact ⟨moves.stacks, moves.others⟩
  | caller unlinked others outside calls =>
      refine ⟨.walked s' unlinked ?_, others⟩
      rcases calls with after | after | ⟨idx, resume, after⟩
      · exact .same (after.trans outside.symm)
      · exact .called outside (by rw [after]; rfl)
      · exact .entered idx outside (by rw [after]; simp)

-----------------------------------------------------------------------------------------
-- Steps of the stack
-----------------------------------------------------------------------------------------

/-- The links that are yet to be used fit in a word. -/
structure Words (s : Sys T K V E) : Prop where
  links : ∀ idx, (s.slots idx).nextFree < 2 ^ 32
  nexts : ∀ t old next seen, (s.pc t).access = .popping old next seen → next < 2 ^ 32
  pushes : ∀ t idx, (s.pc t).access.pushes = some idx → idx < 2 ^ 32

omit [Key K] in
/-- The words of a step, of which only its activity has new ones. -/
theorem Words.step (words : s.Words) (links : ∀ idx, (s'.slots idx).nextFree < 2 ^ 32)
    (others : ∀ u ≠ t, s'.pc u = s.pc u)
    (nexts : ∀ old next seen, (s'.pc t).access = .popping old next seen → next < 2 ^ 32)
    (pushes : ∀ idx, (s'.pc t).access.pushes = some idx → idx < 2 ^ 32)
    : s'.Words where
  links := links
  nexts u old next seen about := by
    by_cases self : u = t
    · subst u
      exact nexts old next seen about
    · rw [others u self] at about
      exact words.nexts u old next seen about
  pushes u idx about := by
    by_cases self : u = t
    · subst u
      exact pushes idx about
    · rw [others u self] at about
      exact words.pushes u idx about

omit [Key K] [DecidableEq T] in
theorem Owned.stack {idx : Nat} (owned : s.Owned idx) : s.stack.Owned SENTINEL idx where
  proper := Nat.ne_of_lt owned.proper
  absent := owned.taken
  unpushed := owned.unpushed

omit [Key K] in
/-- The stack of a state, as far as one activity goes. -/
theorem stack_eq (others : ∀ u ≠ t, s'.pc u = s.pc u)
    : s'.stack
      = State.goto ⟨unpackFreeHead s'.freeHead, fun idx => (s'.slots idx).nextFree,
          s.stack.access, s'.updates⟩ t (s'.pc t).access := by
  have access : s'.stack.access = Function.update s.stack.access t (s'.pc t).access := by
    funext u
    by_cases self : u = t
    · subst u
      rw [Function.update_self]
      rfl
    · rw [Function.update_of_ne self]
      exact congrArg Pc.access (others u self)
  rw [State.goto, ← access]
  rfl

omit [Key K] in
/-- A step that leaves the words alone changes what one activity does with them. -/
theorem Unlinked.stack (unlinked : s.Unlinked s') (others : ∀ u ≠ t, s'.pc u = s.pc u)
    : s'.stack = s.stack.goto t (s'.pc t).access := by
  have links : (fun idx => (s'.slots idx).nextFree) = s.stack.next := funext unlinked.links
  rw [stack_eq others, unlinked.freeHead, unlinked.updates, links]
  rfl

omit [Key K] in
/-- A walk of an activity is a step of the stack, by cases on the walk. -/
theorem Unlinked.step (unlinked : s.Unlinked s') (walks : (s.pc t).Walks s (s'.pc t))
    (others : ∀ u ≠ t, s'.pc u = s.pc u)
    (owned : ∀ idx, s.stackLabel t s' = .called (.push idx) → s.Owned idx)
    : Library.TaggedStack.Step (2 ^ 32) SENTINEL s.stack t (s.stackLabel t s') s'.stack := by
  have exchanged : (s'.updates != s.updates) = false := by
    rw [unlinked.updates, bne_self_eq_false]
  rw [unlinked.stack others]
  cases walks with
  | same access =>
      have label : s.stackLabel t s' = .silent := by
        rw [stackLabel, access]
        cases (s.pc t).access.op? <;> rfl
      have stays : s.stack.goto t (s'.pc t).access = s.stack := by
        rw [access]
        exact s.stack.goto_self t
      rw [label, stays]
      exact .stay
  | called before after =>
      have label : s.stackLabel t s' = .called .pop := by
        rw [stackLabel, before, after]
        rfl
      rw [label, after]
      exact .callPop before
  | looped before after =>
      by_cases stops : (unpackFreeHead s.freeHead).2 = SENTINEL
      · have access : (s'.pc t).access = .outside := by
          rw [after, Pc.popLoop, if_pos stops]
          rfl
        have awake : (s'.pc t).unwinding? = false := by
          rw [after, Pc.popLoop, if_pos stops]
          rfl
        have label : s.stackLabel t s' = .answered (.popped none) := by
          simp only [stackLabel, before, access, awake, exchanged]
          cases about : (s.pc t).access <;> rw [about] at before <;> cases before <;> rfl
        rw [label, access]
        exact .empty before stops
      · have access : (s'.pc t).access = .following (unpackFreeHead s.freeHead) s.updates := by
          rw [after, Pc.popLoop, if_neg stops]
          rfl
        have label : s.stackLabel t s' = .silent := by
          rw [stackLabel, before, access]
          rfl
        rw [label, access]
        exact .load before stops
  | followed old seen before after =>
      have label : s.stackLabel t s' = .silent := by
        rw [stackLabel, before, after]
        rfl
      have about : s.stack.access t = .following (unpackFreeHead old) seen :=
        congrArg Pc.access before
      rw [label, after]
      exact .follow (unpackFreeHead old) seen about
  | entered idx before after =>
      have label : s.stackLabel t s' = .called (.push idx) := by
        rw [stackLabel, before, after]
        rfl
      rw [label, after]
      exact .callPush idx before (owned idx label).stack
  | read idx before after =>
      have label : s.stackLabel t s' = .silent := by
        have busy : (s.pc t).access.op? = some (.push idx) := Access.op?_of_pushes before
        rw [stackLabel, busy, after]
        rfl
      rw [label, after]
      exact .read idx before
  | unwound after =>
      have access : (s'.pc t).access = .outside := by
        rw [after]
        rfl
      cases about : (s.pc t).access.op? with
      | none =>
          have outside : (s.pc t).access = .outside := Access.outside_of_op? about
          have label : s.stackLabel t s' = .silent := by
            rw [stackLabel, about, access]
            rfl
          have stays : s.stack.goto t .outside = s.stack := by
            rw [← outside]
            exact s.stack.goto_self t
          rw [label, access, stays]
          exact .stay
      | some op =>
          have label : s.stackLabel t s' = .abandoned := by
            simp only [stackLabel, about, access]
            rw [after]
            rfl
          rw [label, access]
          exact .abandon op about

omit [Key K] [DecidableEq T] in
/-- A call that ends in an exchange of the head is answered. -/
theorem stackLabel_exchanged {op : StackOp Nat} (before : (s.pc t).access.op? = some op)
    (after : (s'.pc t).access = .outside) (awake : (s'.pc t).unwinding? = false)
    (exchanged : s'.updates = s.updates + 1)
    : s.stackLabel t s' = .answered ((s.pc t).access.res true) := by
  have different : (s'.updates != s.updates) = true := by
    rw [exchanged, bne_iff_ne]
    exact Nat.succ_ne_self _
  simp only [stackLabel, before, after, awake, different]
  rfl

omit [Key K] in
/-- The stack after an exchange of the head counts the tag up. -/
theorem stack_exchanged {old index : Nat} (small : index < 2 ^ 32)
    (freeHead : s'.freeHead = packFreeHead (wrappingAdd (unpackFreeHead old).1 1) index)
    (slots : s'.slots = s.slots) (updates : s'.updates = s.updates + 1)
    (after : (s'.pc t).access = .outside) (others : ∀ u ≠ t, s'.pc u = s.pc u)
    : s'.stack
      = State.goto {
          s.stack with
          head := (((unpackFreeHead old).1 + 1) % 2 ^ 32, index)
          updates := s.updates + 1
        } t .outside := by
  have tagged : unpackFreeHead s'.freeHead = (((unpackFreeHead old).1 + 1) % 2 ^ 32, index) := by
    rw [freeHead, wrappingAdd, unpackFreeHead_pack (Nat.mod_lt _ (by decide)) small]
  rw [stack_eq others, tagged, slots, updates, after]
  rfl

omit [Key K] in
/-- Every step is one of the stack, by cases on what it does to the words. -/
theorem Stacks.step (effect : s.Stacks dbg t s') (words : s.Words)
    (others : ∀ u ≠ t, s'.pc u = s.pc u) (recent : s.Recent t)
    (owned : ∀ idx, s.stackLabel t s' = .called (.push idx) → s.Owned idx)
    : Library.TaggedStack.Step (2 ^ 32) SENTINEL s.stack t (s.stackLabel t s') s'.stack := by
  cases effect with
  | walked _ unlinked walks => exact unlinked.step walks others owned
  | popped old next seen about same =>
      have access : (s.pc t).access = .popping (unpackFreeHead old) next seen :=
        congrArg Pc.access about
      have after : ((s.popExchange dbg t old next).pc t).access = .outside := by
        simp [popExchange, Pc.access]
      have awake : ((s.popExchange dbg t old next).pc t).unwinding? = false := by
        simp only [popExchange, pc_goto_self]
        cases dbg <;> rfl
      have exchanged : (s.popExchange dbg t old next).stack = _ :=
        stack_exchanged (s := s) (words.nexts t _ _ _ access) rfl rfl rfl after others
      rw [stackLabel_exchanged (by rw [access]; rfl) after awake rfl, access, exchanged]
      exact .pop _ next seen access (congrArg unpackFreeHead same) (recent old next seen about same)
  | linked idx old resume about =>
      have access : (s.pc t).access = .linking idx (unpackFreeHead old) := congrArg Pc.access about
      have label : s.stackLabel t
          ((s.setSlot idx { s.slots idx with nextFree := (unpackFreeHead old).2 }).goto t
            (.pushCas idx old resume)) = .silent := by
        rw [stackLabel, access, pc_goto_self]
        rfl
      have links : (fun other => (Function.update s.slots idx
          { s.slots idx with nextFree := (unpackFreeHead old).2 } other).nextFree)
          = Function.update s.stack.next idx (unpackFreeHead old).2 := by
        funext other
        exact Function.apply_update (fun _ slot => Slot.nextFree slot) s.slots idx _ other
      have relinked : ((s.setSlot idx { s.slots idx with nextFree := (unpackFreeHead old).2 }).goto
          t (.pushCas idx old resume)).stack
          = State.goto {
              s.stack with
              next := Function.update s.stack.next idx (unpackFreeHead old).2
            } t (.pushing idx (unpackFreeHead old)) := by
        rw [stack_eq others, ← links, pc_goto_self]
        rfl
      rw [label, relinked]
      exact .link idx _ access
  | recycled idx old resume about same =>
      have access : (s.pc t).access = .pushing idx (unpackFreeHead old) := congrArg Pc.access about
      have after : ((s.pushExchange t idx old resume).pc t).access = .outside := by
        simp [pushExchange]
      have awake : ((s.pushExchange t idx old resume).pc t).unwinding? = false := by
        simp only [pushExchange, pc_goto_self]
        cases resume with
        | missed getter => cases getter <;> rfl
        | _ => rfl
      have small := words.pushes t idx (by rw [access]; rfl)
      have exchanged : (s.pushExchange t idx old resume).stack = _ :=
        stack_exchanged (s := s) small rfl rfl rfl after others
      rw [stackLabel_exchanged (by rw [access]; rfl) after awake rfl, access, exchanged]
      exact .push idx _ access (congrArg unpackFreeHead same)

omit [Key K] in
/-- The links that are yet to be used stay within a word, by cases on what a step does. -/
theorem Stacks.words (effect : s.Stacks dbg t s') (words : s.Words)
    (others : ∀ u ≠ t, s'.pc u = s.pc u)
    (owned : ∀ idx, s.stackLabel t s' = .called (.push idx) → s.Owned idx)
    : s'.Words := by
  have half (word : Nat) : (unpackFreeHead word).2 < 2 ^ 32 := Nat.mod_lt _ (by decide)
  cases effect with
  | walked _ unlinked walks =>
      have links (idx : Nat) : (s'.slots idx).nextFree < 2 ^ 32 := by
        rw [unlinked.links]
        exact words.links idx
      refine words.step links others ?_ ?_
      · intro old next seen about
        cases walks with
        | same access => exact words.nexts t old next seen (access ▸ about)
        | followed old' seen' before after =>
            rw [after] at about
            cases about
            exact words.links _
        | looped before after =>
            rw [after, Pc.popLoop] at about
            split at about <;> cases about
        | called _ after | entered idx _ after | read idx _ after =>
            rw [after] at about
            cases about
        | unwound after =>
            rw [after] at about
            cases about
      · intro idx about
        cases walks with
        | same access => exact words.pushes t idx (access ▸ about)
        | entered idx' before after =>
            rw [after] at about
            cases about
            have label : s.stackLabel t s' = .called (.push idx) := by
              rw [stackLabel, before, after]
              rfl
            exact Nat.lt_trans (owned idx label).proper (by decide)
        | read idx' before after =>
            rw [after] at about
            cases about
            exact words.pushes t idx before
        | looped before after =>
            rw [after, Pc.popLoop] at about
            split at about <;> cases about
        | called _ after =>
            rw [after] at about
            cases about
        | followed _ _ _ after | unwound after =>
            rw [after] at about
            cases about
  | popped old next seen about same =>
      have outside : ((s.popExchange dbg t old next).pc t).access = .outside := by
        simp [popExchange, Pc.access]
      refine words.step words.links others ?_ ?_ <;> simp [outside, Access.pushes]
  | recycled idx old resume about same =>
      have outside : ((s.pushExchange t idx old resume).pc t).access = .outside := by
        simp [pushExchange]
      refine words.step words.links others ?_ ?_ <;> simp [outside, Access.pushes]
  | linked idx old resume about =>
      refine words.step (fun other => ?_) others ?_ ?_
      · change (Function.update s.slots idx _ other).nextFree < 2 ^ 32
        by_cases here : other = idx
        · subst other
          rw [Function.update_self]
          exact half old
        · rw [Function.update_of_ne here]
          exact words.links other
      · simp [Pc.access]
      · intro pushed pushes
        rw [pc_goto_self] at pushes
        cases pushes
        exact words.pushes t idx (by rw [about]; rfl)

-----------------------------------------------------------------------------------------
-- Runs of the stack
-----------------------------------------------------------------------------------------

variable [Fintype T] {log : CallLog T (StackOp Nat) (StackRes Nat)} {free : List Nat}

/-- The runs are runs of the stack with a tagged head, by induction on the run. -/
theorem StackRun.simulates (run : StackRun dbg s log)
    : s.Words ∧ Library.TaggedStack.Run (2 ^ 32) SENTINEL s.stack log := by
  induction run with
  | start =>
      have head : unpackFreeHead (packFreeHead 0 SENTINEL) = (0, SENTINEL) :=
        unpackFreeHead_pack (by decide) (by decide)
      have empty : (Sys.withKey T K V E).stack = .empty SENTINEL fun _ => 0 := by
        simp only [stack, withKey, head]
        rfl
      rw [empty]
      refine ⟨⟨fun _ => Nat.two_pow_pos 32, ?_, ?_⟩, .start _⟩
      · rintro t old next seen ⟨⟩
      · rintro t idx ⟨⟩
  | @step s log t s' _ acts recent owned ih =>
      obtain ⟨words, simulated⟩ := ih
      obtain ⟨effect, others⟩ := acts.stacks
      exact ⟨effect.words words others owned,
        simulated.step (effect.step words others recent owned)⟩

omit [Key K] [DecidableEq T] [Fintype T] in
theorem called_of_stackLabel {op : StackOp Nat} (label : s.stackLabel t s' = .called op)
    : (s.pc t).access.op? = none ∧ (s'.pc t).access.op? = some op := by
  rw [stackLabel] at label
  split at label
  next outside starts =>
    cases label
    exact ⟨outside, starts⟩
  next =>
    split at label <;> cases label
  next => cases label

omit [Key K] [DecidableEq T] [Fintype T] in
theorem Unlinked.freeList (unlinked : s.Unlinked s') (list : s.FreeList free)
    : s'.FreeList free := by
  rw [FreeList, unlinked.freeHead]
  exact list.congr fun idx _ => unlinked.links idx

/-- Whoever pushes an index in the map owns it. -/
theorem Inv.owned_of_pushes (inv : s'.Inv free) (effect : s.Stacks dbg t s')
    (others : ∀ u ≠ t, s'.pc u = s.pc u) {idx : Nat}
    (label : s.stackLabel t s' = .called (.push idx))
    : s.Owned idx := by
  obtain ⟨rests, starts⟩ := called_of_stackLabel label
  have holds := Pc.holds_of_pushes (Access.pushes_of_op? starts)
  obtain ⟨_, _, alone, absent⟩ := inv.exclusive holds
  refine ⟨?_, fun listed list => ?_, fun u pushes => ?_⟩
  · have within := inv.owned.holds_lt_len (Pc.role_of_holds holds).1
    exact Nat.lt_of_lt_of_le within (Nat.le_sub_one_of_lt inv.owned.bound)
  · cases effect with
    | walked _ unlinked => exact absent listed (unlinked.freeList list)
    | popped _ _ _ about | linked _ _ _ about | recycled _ _ _ about =>
        rw [about] at rests
        cases rests
  · by_cases self : u = t
    · subst u
      rw [Access.outside_of_op? rests] at pushes
      cases pushes
    · exact self (alone u (Pc.holds_of_pushes ((others u self).symm ▸ pushes)))

/-- The runs of the map within its limits are such runs, by induction on the run. -/
theorem Reachable.exists_stackRun (reachable : Reachable dbg s) : ∃ log, StackRun dbg s log := by
  induction reachable with
  | refl => exact ⟨_, .start⟩
  | @tail before after earlier next ih =>
      obtain ⟨log, run⟩ := ih
      obtain ⟨free, inv⟩ := Reachable.inv (.tail earlier next)
      obtain ⟨t, choice, within, found⟩ := next
      have acts : before.Acts dbg t after := .program choice found
      obtain ⟨effect, others⟩ := acts.stacks
      exact ⟨_, run.step acts within.tag fun idx label => inv.owned_of_pushes effect others label⟩

omit [Key K] in
omit [DecidableEq T] [Fintype T] in
theorem answered_of_stackLabel {res : StackRes Nat} (label : s.stackLabel t s' = .answered res)
    : (s.pc t).access.op? ≠ none
      ∧ (s'.pc t).access = .outside
      ∧ s'.pc t ≠ .unwinding
      ∧ res = (s.pc t).access.res (s'.updates != s.updates) := by
  rw [stackLabel] at label
  split at label
  next => cases label
  next op busy ended =>
    split at label
    · cases label
    · next awake =>
      cases label
      refine ⟨fun outside => ?_, Access.outside_of_op? ended, fun unwinding => ?_, rfl⟩
      · rw [outside] at busy
        cases busy
      · rw [unwinding] at awake
        exact awake rfl
  next => cases label

omit [Key K] in
omit [DecidableEq T] [Fintype T] in
/-- A walk ends a call only if it is a pop that finds the list empty, by cases on the walk. -/
theorem pushZeroed_of_walks (walks : (s.pc t).Walks s (s'.pc t)) {res : StackRes Nat}
    (label : s.stackLabel t s' = .answered res)
    : s'.pc t = .pushZeroed := by
  obtain ⟨busy, ended, awake, _⟩ := answered_of_stackLabel label
  cases walks with
  | same access =>
      rw [← access, ended] at busy
      exact absurd rfl busy
  | called before | entered _ before =>
      rw [before] at busy
      exact absurd rfl busy
  | looped _ after =>
      rw [after, Pc.popLoop] at ended ⊢
      split at ended
      · next stops => exact if_pos stops
      · cases ended
  | followed _ _ _ after =>
      rw [after] at ended
      cases ended
  | read _ _ after =>
      rw [after] at ended
      cases ended
  | unwound after => exact absurd after awake

omit [Key K] [Fintype T] in
theorem updates_ne_popExchange (old next : Nat)
    : ((s.popExchange dbg t old next).updates != s.updates) = true :=
  bne_iff_ne.mpr (Nat.succ_ne_self _)

omit [Key K] [Fintype T] in
/-- Who has popped an index goes on with it: a walk pops none, and an exchange leads to its slot. -/
theorem Stacks.holds_of_popped (effect : s.Stacks dbg t s') {idx : Nat}
    (label : s.stackLabel t s' = .answered (.popped (some idx)))
    : (s'.pc t).holds = some idx := by
  obtain ⟨busy, ended, _, res⟩ := answered_of_stackLabel label
  cases effect with
  | walked _ unlinked =>
      rw [unlinked.updates, bne_self_eq_false] at res
      generalize (s.pc t).access = access at res
      cases access <;> cases res
  | popped old next seen about =>
      rw [updates_ne_popExchange, about] at res
      cases res
      simp only [popExchange, pc_goto_self]
      cases dbg <;> rfl
  | linked _ _ _ about =>
      rw [pc_goto_self] at ended
      cases ended
  | recycled _ _ _ about =>
      rw [about] at res
      cases res

omit [Key K] [Fintype T] in
/-- Who has found the list empty goes on to claim a new index. -/
theorem Stacks.pushZeroed_of_popped (effect : s.Stacks dbg t s')
    (label : s.stackLabel t s' = .answered (.popped none))
    : s'.pc t = .pushZeroed := by
  obtain ⟨busy, ended, _, res⟩ := answered_of_stackLabel label
  cases effect with
  | walked _ _ walks => exact pushZeroed_of_walks walks label
  | popped old next seen about =>
      rw [updates_ne_popExchange, about] at res
      cases res
  | linked _ _ _ about =>
      rw [pc_goto_self] at ended
      cases ended
  | recycled _ _ _ about =>
      rw [about] at res
      cases res

/-- The calls on the free list are those of a LIFO stack. -/
structure Stacked (dbg : Bool) (s : Sys T K V E) (log : CallLog T (StackOp Nat) (StackRes Nat))
    : Prop where
  /-- The order in which the calls take effect explains the history, and leaves the free list. -/
  lifo
    : ∃ free,
        s.FreeList free
        ∧ free.Nodup
        ∧ Behaves StackStep [] (effects log.history) free
        ∧ Linearization StackStep [] log.history (effects log.history)
  /-- A successful pop returns the top, with whose slot the caller goes on, and leaves what is below
  it. -/
  top
    : ∀ t s' idx, s.Acts dbg t s' → s.Recent t →
        s.stackLabel t s' = .answered (.popped (some idx)) →
        (s'.pc t).holds = some idx ∧ ∃ rest, s.FreeList (idx :: rest) ∧ s'.FreeList rest
  /-- A pop fails only at an instant when the stack is empty, and the caller goes on to claim a new
  index. -/
  bottom
    : ∀ t s', s.Acts dbg t s' → s.Recent t →
        s.stackLabel t s' = .answered (.popped none) →
        s'.pc t = .pushZeroed ∧ s.FreeList []
  /-- An index is pushed between two pops of it. -/
  single
    : ∀ idx first second before between after,
        effects log.history
          = before ++ ⟨first, .pop, .popped (some idx)⟩
              :: (between ++ ⟨second, .pop, .popped (some idx)⟩ :: after) →
        ∃ id, ⟨id, .push idx, .pushed⟩ ∈ between

/-- A step that answers takes its call on the stack. -/
theorem StackRun.answers (run : StackRun dbg s log) (acts : s.Acts dbg t s')
    (recent : s.Recent t) {res : StackRes Nat} (label : s.stackLabel t s' = .answered res)
    : ∃ cells cells' op,
        s.FreeList cells
        ∧ s'.FreeList cells'
        ∧ StackStep cells op res cells' := by
  obtain ⟨words, simulated⟩ := run.simulates
  obtain ⟨_, _, cells, inv, _⟩ := simulated.explained
  obtain ⟨effect, others⟩ := acts.stacks
  have step := effect.step words others recent fun idx called => by
    rw [label] at called
    cases called
  obtain ⟨cells', inv', explains⟩ := inv.step step
  rw [label] at explains
  obtain ⟨op, _, taken⟩ := explains
  exact ⟨cells, cells', op, inv.chain, inv'.chain, taken⟩

/-- `pop_free_index` and `push_free_index` are the calls of a linearizable stack, in every run in
which only owned indices are pushed and the tag does not go round within a pop; and the runs of
the map are such runs.
-/
theorem free_list_linearizable (dbg : Bool) (s : Sys T K V E)
    : (Reachable dbg s → ∃ log, StackRun dbg s log)
      ∧ ∀ log, StackRun dbg s log → s.Stacked dbg log := by
  refine ⟨Reachable.exists_stackRun, fun log run => ⟨?_, ?_, ?_, ?_⟩⟩
  · obtain ⟨free, chain, behaves, linearization⟩ := run.simulates.2.linearization
    exact ⟨free, chain, StackStep.nodup behaves .nil, behaves, linearization⟩
  · intro t s' idx acts recent label
    obtain ⟨cells, cells', op, list, list', taken⟩ := run.answers acts recent label
    cases taken
    exact ⟨acts.stacks.1.holds_of_popped label, cells', list, list'⟩
  · intro t s' acts recent label
    obtain ⟨cells, cells', op, list, _, taken⟩ := run.answers acts recent label
    cases taken
    exact ⟨acts.stacks.1.pushZeroed_of_popped label, list⟩
  · intro idx first second before between after order
    obtain ⟨_, _, behaves, _⟩ := run.simulates.2.linearization
    rw [order] at behaves
    exact StackStep.pushed_between behaves

end Sys

/-- One activity is to pop index 1, below which it has seen index 0. Another pops both and pushes
index 1 again, now alone; then the first goes on.
-/
def popAcrossRepush : List (Bool × Choice UInt64 Nat Empty) :=
  Sys.turns false (
    .call .tryInsertWithKey :: List.replicate 5 .go ++ .closureOk 7 :: List.replicate 6 .go
    ++ .call .tryInsertWithKey :: List.replicate 3 .go ++ .closureOk 8 :: List.replicate 6 .go
    ++ .call (.remove ((1 : UInt64) <<< 32)) :: List.replicate 12 .go
    ++ .call (.remove ((1 : UInt64) <<< 32 ||| 1)) :: List.replicate 12 .go)
  ++ Sys.turns true (.call .tryInsertWithKey :: List.replicate 3 .go)
  ++ Sys.turns false (
    .call .tryInsertWithKey :: List.replicate 6 .go ++ .closureOk 9 :: List.replicate 6 .go
    ++ .call .tryInsertWithKey :: List.replicate 6 .go ++ .closureOk 10 :: List.replicate 6 .go
    ++ .call (.remove ((3 : UInt64) <<< 32 ||| 1)) :: List.replicate 12 .go)
  ++ Sys.turns true (List.replicate 6 .go)

open Sys in
/-- That pop does not install index 0, which is in use: its exchange fails, and it pops again. -/
theorem free_list_linearizable_popAcrossRepush
    : ∃ (s : Sys Bool UInt64 Nat Empty) (log : _),
        s.pc true = .closure 1 5
        ∧ (s.slots 0).version % 2 = 1
        ∧ s.FreeList []
        ∧ s.Stacked false log := by
  have found : (Sys.run false (.withKey Bool UInt64 Nat Empty) popAcrossRepush).map
      (fun s => ((s.pc true).offered?, (s.slots 0).version % 2, (unpackFreeHead s.freeHead).2))
      = some (some (1, 5), 1, SENTINEL) := by
    decide +kernel
  obtain ⟨s, reached, after⟩ := Option.map_eq_some_iff.mp found
  simp only [Prod.mk.injEq] at after
  obtain ⟨offered, odd, head⟩ := after
  have stacked := free_list_linearizable false s
  obtain ⟨log, run⟩ := stacked.1 (.of_run reached)
  exact ⟨s, log, Pc.eq_closure offered, odd, head, stacked.2 log run⟩

end AtomicSlotMap
