import AtomicSlotMap.History.Locals
import AtomicSlotMap.Library.Counting
import AtomicSlotMap.Ownership.Simulation

/-! The element counter. Publications, removals and the two updates of the counter are tallied
by key; what separates them is what the activities are about to do.
-/

namespace AtomicSlotMap

variable {T K V E : Type} [Key K]

/-- The slot whose publication an activity has yet to count. -/
def Pc.counting : Pc K V E → Multiset (Nat × Nat)
  | .waitForChunk _ next | .assertRefCount _ next | .assertVersion _ next => next.counting
  | .insertCount key _ => {KeyData.place key}
  | _ => 0

/-- The slot whose removal the caller of `push_free_index` has yet to count. -/
def AfterPush.discounting : AfterPush K E → Multiset (Nat × Nat)
  | .removed key => {KeyData.place key}
  | _ => 0

/-- The slot whose removal an activity has yet to count. -/
def Pc.discounting : Pc K V E → Multiset (Nat × Nat)
  | .waitForChunk _ next | .assertRefCount _ next | .assertVersion _ next => next.discounting
  | .removeDec key | .removeCount key => {KeyData.place key}
  | .dropValue _ after | .pushLoad _ after | .pushStore _ _ after | .pushCas _ _ after =>
      after.discounting
  | _ => 0

section

variable {dbg : Bool} {s : Sys T K V E} {pc pc' : Pc K V E} {op : Op K} {res : Res K V E}

attribute [local simp] Pc.counting AfterPush.discounting Pc.discounting

@[simp] theorem Pc.counting_exclusivelyOwned (dbg : Bool) (idx : Nat) (next : Pc K V E)
    : (Pc.exclusivelyOwned dbg idx next).counting = next.counting := by
  cases dbg <;> rfl

@[simp] theorem Pc.counting_pushFreeIndex (dbg : Bool) (idx : Nat) (after : AfterPush K E)
    : (Pc.pushFreeIndex dbg idx after : Pc K V E).counting = 0 := by
  cases dbg <;> rfl

@[simp] theorem Getter.counting_missed (getter : Getter)
    : (getter.missed : Pc K V E).counting = 0 := by
  cases getter <;> rfl

@[simp] theorem AfterPush.counting_resume (after : AfterPush K E)
    : (after.resume : Pc K V E).counting = 0 := by
  cases after <;> simp [AfterPush.resume, Pc.counting]

@[simp] theorem AfterEnsure.counting_resume (after : AfterEnsure)
    : (after.resume : Pc K V E).counting = 0 := by
  cases after with
  | pushed idx => rfl
  | reserving chunk maxChunk =>
      simp only [AfterEnsure.resume]
      split <;> rfl

@[simp] theorem Pc.counting_popLoop (head updates : Nat)
    : (Pc.popLoop head updates : Pc K V E).counting = 0 := by
  rw [Pc.popLoop]
  split <;> rfl

@[simp] theorem Pc.discounting_exclusivelyOwned (dbg : Bool) (idx : Nat) (next : Pc K V E)
    : (Pc.exclusivelyOwned dbg idx next).discounting = next.discounting := by
  cases dbg <;> rfl

@[simp] theorem Pc.discounting_pushFreeIndex (dbg : Bool) (idx : Nat) (after : AfterPush K E)
    : (Pc.pushFreeIndex dbg idx after : Pc K V E).discounting = after.discounting := by
  cases dbg <;> rfl

@[simp] theorem Getter.discounting_missed (getter : Getter)
    : (getter.missed : Pc K V E).discounting = 0 := by
  cases getter <;> rfl

@[simp] theorem AfterPush.discounting_resume (after : AfterPush K E)
    : (after.resume : Pc K V E).discounting = after.discounting := by
  cases after <;> simp [AfterPush.resume, AfterPush.discounting, Pc.discounting]

@[simp] theorem AfterEnsure.discounting_resume (after : AfterEnsure)
    : (after.resume : Pc K V E).discounting = 0 := by
  cases after with
  | pushed idx => rfl
  | reserving chunk maxChunk =>
      simp only [AfterEnsure.resume]
      split <;> rfl

@[simp] theorem Pc.discounting_popLoop (head updates : Nat)
    : (Pc.popLoop head updates : Pc K V E).discounting = 0 := by
  rw [Pc.popLoop]
  split <;> rfl

@[simp] theorem Res.counting_rest (res : Res K V E) : res.rest.counting = 0 := by
  cases res <;> rfl

@[simp] theorem Res.discounting_rest (res : Res K V E) : res.rest.discounting = 0 := by
  cases res <;> rfl

/-- Moves of a program counter have nothing to do with the counter, by cases on the move. -/
theorem Pc.Goes.counting (goes : pc.Goes dbg s pc')
    : pc'.counting = pc.counting ∧ pc'.discounting = pc.discounting := by
  cases goes <;> simp [Pc.counting, Pc.discounting]

theorem Pc.Answers.counting (answers : pc.Answers dbg s res pc')
    : pc'.counting = pc.counting ∧ pc'.discounting = pc.discounting := by
  cases answers <;> simp [Pc.counting, Pc.discounting, AfterPush.discounting]

theorem Op.Starts.counting (starts : op.Starts s pc)
    : pc.counting = 0 ∧ pc.discounting = 0 := by
  cases starts <;> simp [Pc.counting, Pc.discounting]

theorem Pc.Calls.counting (calls : pc.Calls op)
    : pc.counting = 0 ∧ pc.discounting = 0 := by
  rcases calls with ⟨rfl, _⟩ | ⟨_, rfl, _⟩ <;> exact ⟨rfl, rfl⟩

theorem Pc.Decrements.counting {needsDrop otherwise : Pc K V E} {idx : Nat}
    (decrements : pc.Decrements idx needsDrop otherwise)
    : needsDrop.counting = pc.counting ∧ otherwise.counting = pc.counting
      ∧ needsDrop.discounting = pc.discounting ∧ otherwise.discounting = pc.discounting := by
  cases decrements <;> simp [Pc.counting, Pc.discounting, AfterPush.discounting]

/-- An activity that has yet to count a publication has no role, by induction on the waits. -/
theorem Pc.role_of_counting (counting : pc.counting ≠ 0) : pc.role = .none := by
  induction pc with
  | waitForChunk _ next ih => exact ih counting
  | assertRefCount _ next ih => exact ih counting
  | assertVersion _ next ih => exact ih counting
  | insertCount key stored => rfl
  | _ => exact absurd rfl counting

/-- A call that can panic has no publication to count. If it has a removal to count, it loses
a slot.
-/
theorem Pc.Fails.counting (fails : pc.Fails dbg s) (wellFormed : pc.WellFormed)
    : pc.counting = 0 ∧ (pc.discounting = 0 ∨ ∃ idx, pc.holds = some idx) := by
  have vacant {idx : Nat} (vacant : pc.role.vacant idx) : pc.counting = 0 := by
    by_contra counting
    rw [Pc.role_of_counting counting] at vacant
    exact vacant
  cases fails with
  | referenced idx next positive =>
      exact ⟨vacant wellFormed.1, Or.inr ⟨idx, Pc.holds_of_vacant wellFormed.1⟩⟩
  | occupied idx next odd =>
      exact ⟨vacant wellFormed.1, Or.inr ⟨idx, Pc.holds_of_vacant wellFormed.1⟩⟩
  | _ => exact ⟨rfl, Or.inl rfl⟩

end

-----------------------------------------------------------------------------------------
-- The balance
-----------------------------------------------------------------------------------------

/-- What the counter and the tallies have to do with each other. A removal is not counted if
its call unwinds, which loses the slot.
-/
structure Sys.Tallied [Fintype T] (s : Sys T K V E) : Prop where
  elements
    : (s.numElems + (tally Event.discounts s.trace).card) % 2 ^ 32
      = (tally Event.counts s.trace).card % 2 ^ 32
  word : s.numElems < 2 ^ 32
  counting
    : tally Event.publishes s.trace
      = tally Event.counts s.trace + ∑ t, (s.pc t).counting
  discounting
    : ∃ lost, tally Event.retires s.trace
        = tally Event.discounts s.trace + lost + ∑ t, (s.pc t).discounting
      ∧ (s.NothingLost → lost = 0)

namespace Sys

variable [DecidableEq T] [Fintype T] {dbg : Bool} {s s' : Sys T K V E} {t : T}

omit [DecidableEq T] in
theorem Tallied.withKey : (Sys.withKey T K V E).Tallied where
  elements := rfl
  word := by
    show 0 < 2 ^ 32
    decide
  counting := by simp [Sys.withKey, tally, Pc.counting]
  discounting := ⟨0, by simp [Sys.withKey, tally, Pc.discounting], fun _ => rfl⟩

/-- A step that has nothing to do with the counter. -/
theorem Tallied.kept (tallied : s.Tallied) {pc : Pc K V E} (events : List (Event T K V))
    (numElems : s'.numElems = s.numElems) (trace : s'.trace = events ++ s.trace)
    (plain : ∀ event ∈ events, event.Plain) (pcs : s'.pc = Function.update s.pc t pc)
    (counting : pc.counting = (s.pc t).counting)
    (discounting
      : pc.discounting = (s.pc t).discounting
        ∨ (pc.discounting = 0 ∧ ∃ actor idx, .leaked actor idx ∈ events))
    : s'.Tallied := by
  have same {kind : Event T K V → Multiset (Nat × Nat)} (none : ∀ event ∈ events, kind event = 0) :
      tally kind s'.trace = tally kind s.trace :=
    trace ▸ tally_append s.trace none
  have publishes := same fun event listed => (plain event listed).publishes
  have retires := same fun event listed => (plain event listed).retires
  have counts := same fun event listed => (plain event listed).counts
  have discounts := same fun event listed => (plain event listed).discounts
  obtain ⟨lost, balance, nothing⟩ := tallied.discounting
  have earlier (nothingLost : s'.NothingLost) : s.NothingLost := fun actor idx member =>
    nothingLost actor idx (trace ▸ List.mem_append_right _ member)
  refine ⟨?_, numElems ▸ tallied.word, ?_, ?_⟩
  · rw [numElems, discounts, counts]
    exact tallied.elements
  · have step := Library.balance_update t pc 0 0 tallied.counting
      (by rw [counting])
    rw [publishes, counts, pcs]
    simpa using step
  · rcases discounting with same | ⟨none, actor, idx, leaked⟩
    · have step := Library.balance_update t pc 0 0 balance
        (by rw [same])
      refine ⟨lost, ?_, fun nothingLost => nothing (earlier nothingLost)⟩
      rw [retires, discounts, pcs]
      simpa using step
    · have step := Library.balance_update t pc 0 (s.pc t).discounting balance
        (by rw [none]; simp)
      refine ⟨(s.pc t).discounting + lost, ?_, fun nothingLost => ?_⟩
      · rw [retires, discounts, pcs]
        simpa [add_assoc, add_left_comm] using step
      · exact absurd (trace ▸ List.mem_append_left _ leaked) (nothingLost actor idx)

/-- A step that goes on and records nothing. -/
theorem Tallied.going (tallied : s.Tallied) (pc : Pc K V E)
    (numElems : s'.numElems = s.numElems) (trace : s'.trace = s.trace)
    (pcs : s'.pc = Function.update s.pc t pc) (counting : pc.counting = (s.pc t).counting)
    (discounting : pc.discounting = (s.pc t).discounting)
    : s'.Tallied :=
  tallied.kept (t := t) [] numElems trace nofun pcs counting (Or.inl discounting)

/-- A step that goes on and records one event. -/
theorem Tallied.noting (tallied : s.Tallied) (pc : Pc K V E) {event : Event T K V}
    (numElems : s'.numElems = s.numElems) (trace : s'.trace = event :: s.trace)
    (plain : event.Plain) (pcs : s'.pc = Function.update s.pc t pc)
    (counting : pc.counting = (s.pc t).counting)
    (discounting : pc.discounting = (s.pc t).discounting)
    : s'.Tallied :=
  tallied.kept (t := t) [event] numElems trace (by simpa using plain) pcs counting
    (Or.inl discounting)

omit [DecidableEq T] in
/-- Only the counter, the trace and the program counters matter. -/
theorem Tallied.congr (tallied : s.Tallied) (numElems : s'.numElems = s.numElems)
    (trace : s'.trace = s.trace) (pcs : s'.pc = s.pc)
    : s'.Tallied where
  elements := by
    rw [numElems, trace]
    exact tallied.elements
  word := numElems ▸ tallied.word
  counting := by
    rw [trace, pcs]
    exact tallied.counting
  discounting := by
    simp only [NothingLost, trace, pcs]
    exact tallied.discounting

/-- An answer has nothing to do with the counter. -/
theorem Tallied.answering (tallied : s.Tallied) {res : Res K V E} {pc : Pc K V E}
    (counting : pc.counting = (s.pc t).counting)
    (discounting : pc.discounting = (s.pc t).discounting)
    : ((s.answer t res).goto t pc).Tallied :=
  tallied.going (t := t) pc (alike_answer s t res).numElems (trace_answer s t res)
    (pc_answer_goto s t res pc) counting discounting

/-- The end of a call has nothing to do with the counter. -/
theorem Tallied.finishing (tallied : s.Tallied) {event : Nat → HistoryEvent K V E}
    {pc : Pc K V E} (counting : pc.counting = (s.pc t).counting)
    (discounting : pc.discounting = (s.pc t).discounting)
    : ((s.finish t event).goto t pc).Tallied :=
  tallied.going (t := t) pc (alike_finish s t event).numElems (trace_finish s t event)
    (pc_finish_goto s t event pc) counting discounting

/-- A publication is to be counted. -/
theorem Tallied.published (tallied : s.Tallied) (actor : T) (key : K) (stored : Stored V)
    (pc : Pc K V E) (numElems : s'.numElems = s.numElems)
    (trace : s'.trace = .published actor key stored :: s.trace)
    (pcs : s'.pc = Function.update s.pc t pc)
    (counting : {KeyData.place key} + (s.pc t).counting = pc.counting)
    (discounting : pc.discounting = (s.pc t).discounting)
    : s'.Tallied := by
  obtain ⟨lost, balance, nothing⟩ := tallied.discounting
  have step := Library.balance_update t pc {KeyData.place key} 0 tallied.counting
    (by rw [counting, zero_add])
  have step' := Library.balance_update t pc 0 0 balance (by rw [discounting])
  refine ⟨?_, numElems ▸ tallied.word, ?_, lost, ?_, fun nothingLost => nothing ?_⟩
  · rw [numElems, trace]
    simpa [Event.discounts, Event.counts] using tallied.elements
  · rw [trace, pcs]
    simpa [Event.publishes, Event.counts] using step
  · rw [trace, pcs]
    simpa [Event.retires, Event.discounts] using step'
  · exact fun actor idx member =>
      nothingLost actor idx (trace ▸ List.mem_cons_of_mem _ member)

/-- A removal is to be counted. -/
theorem Tallied.retired (tallied : s.Tallied) (actor : T) (key : K) (pc : Pc K V E)
    (numElems : s'.numElems = s.numElems) (trace : s'.trace = .retired actor key :: s.trace)
    (pcs : s'.pc = Function.update s.pc t pc) (counting : pc.counting = (s.pc t).counting)
    (discounting : {KeyData.place key} + (s.pc t).discounting = pc.discounting)
    : s'.Tallied := by
  obtain ⟨lost, balance, nothing⟩ := tallied.discounting
  have step := Library.balance_update t pc 0 0 tallied.counting (by rw [counting])
  have step' := Library.balance_update t pc {KeyData.place key} 0 balance
    (by rw [discounting, zero_add])
  refine ⟨?_, numElems ▸ tallied.word, ?_, lost, ?_, fun nothingLost => nothing ?_⟩
  · rw [numElems, trace]
    simpa [Event.discounts, Event.counts] using tallied.elements
  · rw [trace, pcs]
    simpa [Event.publishes, Event.counts] using step
  · rw [trace, pcs]
    simpa [Event.retires, Event.discounts] using step'
  · exact fun actor idx member =>
      nothingLost actor idx (trace ▸ List.mem_cons_of_mem _ member)

/-- The counter counts a publication. -/
theorem Tallied.counted (tallied : s.Tallied) {key : K} {actor : T} {count : Nat}
    {pc : Pc K V E} (raised : count = wrappingAdd s.numElems 1)
    (counting : (s.pc t).counting = {KeyData.place key} + pc.counting)
    (discounting : pc.discounting = (s.pc t).discounting)
    : (((s.setNumElems count).emit (.counted actor key)).goto t pc).Tallied := by
  obtain ⟨lost, balance, nothing⟩ := tallied.discounting
  have elements := tallied.elements
  have step := Library.balance_update t pc 0 {KeyData.place key} tallied.counting
    (by rw [counting, zero_add])
  have step' := Library.balance_update t pc 0 0 balance (by rw [discounting])
  rw [wrappingAdd] at raised
  refine ⟨?_, ?_, ?_, lost, ?_, fun nothingLost => nothing ?_⟩
  · show (count + (tally Event.discounts (.counted actor key :: s.trace)).card) % 2 ^ 32
      = (tally Event.counts (.counted actor key :: s.trace)).card % 2 ^ 32
    simp only [tally_cons, Event.discounts, Event.counts, zero_add, Multiset.card_add,
      Multiset.card_singleton]
    omega
  · show count < 2 ^ 32
    omega
  · show tally Event.publishes (.counted actor key :: s.trace)
      = tally Event.counts (.counted actor key :: s.trace)
        + ∑ x, (Function.update s.pc t pc x).counting
    simpa [Event.publishes, Event.counts] using step
  · show tally Event.retires (.counted actor key :: s.trace)
      = tally Event.discounts (.counted actor key :: s.trace) + lost
        + ∑ x, (Function.update s.pc t pc x).discounting
    simpa [Event.retires, Event.discounts] using step'
  · exact fun actor idx member => nothingLost actor idx (List.mem_cons_of_mem _ member)

/-- The counter counts a removal. -/
theorem Tallied.discounted (tallied : s.Tallied) {key : K} {actor : T} {count : Nat}
    {pc : Pc K V E} (lowered : count = wrappingSub s.numElems 1)
    (counting : pc.counting = (s.pc t).counting)
    (discounting : (s.pc t).discounting = {KeyData.place key} + pc.discounting)
    : (((s.setNumElems count).emit (.discounted actor key)).goto t pc).Tallied := by
  obtain ⟨lost, balance, nothing⟩ := tallied.discounting
  have elements := tallied.elements
  have step := Library.balance_update t pc 0 0 tallied.counting (by rw [counting])
  have step' := Library.balance_update t pc 0 {KeyData.place key} balance
    (by rw [discounting, zero_add])
  rw [wrappingSub] at lowered
  refine ⟨?_, ?_, ?_, lost, ?_, fun nothingLost => nothing ?_⟩
  · show (count + (tally Event.discounts (.discounted actor key :: s.trace)).card) % 2 ^ 32
      = (tally Event.counts (.discounted actor key :: s.trace)).card % 2 ^ 32
    simp only [tally_cons, Event.discounts, Event.counts, zero_add, Multiset.card_add,
      Multiset.card_singleton]
    omega
  · show count < 2 ^ 32
    omega
  · show tally Event.publishes (.discounted actor key :: s.trace)
      = tally Event.counts (.discounted actor key :: s.trace)
        + ∑ x, (Function.update s.pc t pc x).counting
    simpa [Event.publishes, Event.counts] using step
  · show tally Event.retires (.discounted actor key :: s.trace)
      = tally Event.discounts (.discounted actor key :: s.trace) + lost
        + ∑ x, (Function.update s.pc t pc x).discounting
    simpa [Event.retires, Event.discounts, add_assoc] using step'
  · exact fun actor idx member => nothingLost actor idx (List.mem_cons_of_mem _ member)

/-- A panic loses the slot of a removal that is not counted yet. -/
theorem Tallied.unwinding (tallied : s.Tallied) (counting : (s.pc t).counting = 0)
    (holds : (s.pc t).discounting = 0 ∨ ∃ idx, (s.pc t).holds = some idx)
    : (s.unwind t).Tallied := by
  have pcs : (s.unwind t).pc = Function.update s.pc t .unwinding := by
    rw [unwind]
    split <;> rfl
  have numElems : (s.unwind t).numElems = s.numElems := (alike_unwind s t).numElems
  cases held : (s.pc t).holds with
  | some idx =>
      have trace : (s.unwind t).trace = [.leaked t idx] ++ s.trace := by
        simp only [unwind, held]
        rfl
      refine tallied.kept [.leaked t idx] numElems trace ?_ pcs counting.symm
        (Or.inr ⟨rfl, t, idx, List.mem_cons_self⟩)
      simp only [List.mem_singleton, forall_eq]
      exact ⟨rfl, rfl, rfl, rfl⟩
  | none =>
      have trace : (s.unwind t).trace = s.trace := by
        simp only [unwind, held]
        rfl
      have nothing : (s.pc t).discounting = 0 := holds.resolve_right (by simp [held])
      exact tallied.going _ numElems trace pcs counting.symm nothing.symm

/-- Every step keeps the balance, by cases on the move. -/
theorem Tallied.moves (tallied : s.Tallied) (wellFormed : s.WellFormed) (moves : s.Moves dbg t s')
    : s'.Tallied := by
  cases moves with
  | stay => exact tallied
  | go pc goes => exact tallied.going _ rfl rfl rfl goes.counting.1 goes.counting.2
  | answered res pc answers =>
      exact tallied.answering answers.counting.1 answers.counting.2
  | failed fails =>
      obtain ⟨counting, holds⟩ := fails.counting (wellFormed.locals t)
      exact tallied.unwinding counting holds
  | popped old next seen about same =>
      exact tallied.noting _ rfl rfl ⟨rfl, rfl, rfl, rfl⟩ rfl (by simp [about, Pc.counting])
        (by simp [about, Pc.discounting])
  | pushed about =>
      exact tallied.noting _ rfl rfl ⟨rfl, rfl, rfl, rfl⟩ rfl (by rw [about]; rfl)
        (by rw [about]; rfl)
  | wrote idx version value about =>
      exact tallied.noting _ rfl rfl ⟨rfl, rfl, rfl, rfl⟩ rfl (by rw [about]; rfl)
        (by rw [about]; rfl)
  | armed idx version stored about =>
      exact tallied.noting _ rfl rfl ⟨rfl, rfl, rfl, rfl⟩ rfl (by rw [about]; rfl)
        (by rw [about]; rfl)
  | published idx version stored about =>
      refine tallied.published (t := t) t (KeyData.new idx version) stored
        (.insertCount (KeyData.new idx version) stored) (alike_answer _ t _).numElems
        (trace_publish s t idx version stored) ?_ ?_ ?_
      · exact pc_answer_goto _ t _ _
      · rw [about]
        rfl
      · rw [about]
        rfl
  | counted key stored about count sum =>
      exact tallied.counted sum (by rw [about]; rfl) (by rw [about]; rfl)
  | allocated chunk after about =>
      exact tallied.noting _ rfl rfl ⟨rfl, rfl, rfl, rfl⟩ rfl (by rw [about]; rfl)
        (by rw [about]; rfl)
  | installed chunk new after about absent =>
      exact tallied.noting _ rfl rfl ⟨rfl, rfl, rfl, rfl⟩ rfl (by simp [about, Pc.counting])
        (by simp [about, Pc.discounting])
  | deallocated new after about =>
      exact tallied.noting _ rfl rfl ⟨rfl, rfl, rfl, rfl⟩ rfl (by simp [about, Pc.counting])
        (by simp [about, Pc.discounting])
  | linked idx old after about =>
      exact tallied.going _ rfl rfl rfl (by rw [about]; rfl) (by rw [about]; rfl)
  | recycled idx old after about same =>
      exact tallied.noting _ rfl rfl ⟨rfl, rfl, rfl, rfl⟩ rfl (by simp [about, Pc.counting])
        (by simp [about, Pc.discounting])
  | dropped idx after about =>
      exact tallied.noting _ rfl rfl ⟨rfl, rfl, rfl, rfl⟩ rfl (by simp [about, Pc.counting])
        (by simp [about, Pc.discounting])
  | dropPanicked idx after about =>
      have staged : (s.dropInnerValue t idx).Tallied := by
        refine tallied.noting (t := t) (s.pc t) rfl rfl ⟨rfl, rfl, rfl, rfl⟩ ?_ rfl rfl
        exact (Function.update_eq_self t s.pc).symm
      refine staged.unwinding ?_ (Or.inr ⟨idx, ?_⟩)
      · show (s.pc t).counting = 0
        rw [about]
        rfl
      · show (s.pc t).holds = some idx
        rw [about]
        rfl
  | retired key current about same =>
      refine tallied.retired (t := t) t key (.removeDec key) ?_
        (trace_removeExchange s t same) ?_ ?_ ?_
      · simp only [removeExchange, if_pos same]
        exact (alike_answer _ t _).numElems
      · simp only [removeExchange, if_pos same]
        exact pc_answer_goto _ t _ _
      · rw [about]
        rfl
      · rw [about]
        rfl
  | decremented idx needsDrop otherwise decrements =>
      obtain ⟨dropping, other, dropping', other'⟩ := decrements.counting
      rw [decRefCount]
      split
      · exact tallied.noting _ rfl rfl ⟨rfl, rfl, rfl, rfl⟩ rfl dropping dropping'
      · exact tallied.noting _ rfl rfl ⟨rfl, rfl, rfl, rfl⟩ rfl other other'
  | discounted key about count difference =>
      exact tallied.discounted difference (by rw [about]; rfl) (by rw [about]; rfl)
  | acquired key getter refcount about same =>
      exact tallied.going _ rfl rfl rfl (by rw [about]; rfl) (by rw [about]; rfl)
  | guarded key getter about same =>
      simp only [acquireCheck, if_pos same]
      generalize (⟨s.guardIds, key, getter.owning, (s.slots (KeyData.idx key)).data⟩
        : Guard K V) = guard
      have staged : (s.addGuard guard).Tallied := tallied.congr rfl rfl rfl
      refine staged.answering (t := t) ?_ ?_
      · show _ = (s.pc t).counting
        rw [about]
        rfl
      · show _ = (s.pc t).discounting
        rw [about]
        rfl
  | cloned guard about =>
      rw [cloneGuard]
      generalize wrappingAdd (s.slots (KeyData.idx guard.key)).refCount 1 = count
      have raised : (s.setSlot (KeyData.idx guard.key)
          { s.slots (KeyData.idx guard.key) with refCount := count }).Tallied :=
        tallied.congr rfl rfl rfl
      have none : (s.pc t).counting = 0 ∧ (s.pc t).discounting = 0 := by
        rw [about]
        exact ⟨rfl, rfl⟩
      split
      · generalize (⟨s.guardIds, guard.key, true, guard.pointee⟩ : Guard K V) = clone
        have staged : ((s.setSlot (KeyData.idx guard.key)
            { s.slots (KeyData.idx guard.key) with refCount := count }).addGuard clone).Tallied :=
          raised.congr rfl rfl rfl
        exact staged.answering none.1.symm none.2.symm
      · exact raised.unwinding none.1 (Or.inl none.2)
  | began op pc calls starts =>
      refine tallied.going _ rfl rfl rfl ?_ ?_
      · rw [starts.counting.1, calls.counting.1]
      · rw [starts.counting.2, calls.counting.2]
  | beganReserve additional calls =>
      have staged : (s.begin t (.reserve additional)).Tallied := tallied.congr rfl rfl rfl
      exact staged.answering calls.counting.1.symm calls.counting.2.symm
  | beganDeref id guard calls found =>
      have staged : (s.begin t (.derefGuard id)).Tallied := tallied.congr rfl rfl rfl
      exact staged.answering calls.counting.1.symm calls.counting.2.symm
  | beganDrop id guard calls found unborrowed =>
      have staged : ({ s with guards := s.guards.eraseP (·.id == id) }.begin t
          (.dropGuard id) : Sys T K V E).Tallied :=
        tallied.congr rfl rfl rfl
      exact staged.answering calls.counting.1.symm calls.counting.2.symm
  | beganForget id guard calls found unborrowed =>
      have staged : ({
          s with
          guards := s.guards.eraseP (·.id == id)
          forgotten := guard :: s.forgotten
        }.begin t (.forgetGuard id) : Sys T K V E).Tallied :=
        tallied.congr rfl rfl rfl
      exact staged.answering calls.counting.1.symm calls.counting.2.symm
  | returned res about =>
      refine tallied.finishing ?_ ?_
      · rw [about, Res.counting_rest]
        rfl
      · rw [about, Res.discounting_rest]
        rfl
  | unwound about => exact tallied.finishing (by rw [about]; rfl) (by rw [about]; rfl)

/-- Every state of a run keeps the balance, by induction on the run. -/
theorem tallied_of_run (run : Relation.ReflTransGen (Step dbg) (.withKey T K V E) s)
    : s.Tallied :=
  Library.ReflTransGen.invariant_with WellFormed run (fun _ run => wellFormed_of_run run)
    .withKey fun _ _ wellFormed _ tallied ⟨_, _, found⟩ =>
      tallied.moves wellFormed (step_moves found)

end Sys

-----------------------------------------------------------------------------------------
-- The number of occupied slots
-----------------------------------------------------------------------------------------

/-- Whether a slot in this phase is occupied. -/
def Phase.isLive : Phase T K V → Bool
  | .live _ _ => true
  | _ => false

/-- Only a publication and a removal change whether a slot is live, by cases on the event. -/
theorem Phase.isLive_advance [DecidableEq T] {phase : Phase T K V} {event : Event T K V}
    {length : Nat} (allowed : phase.Allows length event) (published : event.publishes = 0)
    (retired : event.retires = 0)
    : (phase.advance event).isLive = phase.isLive := by
  cases event with
  | pushed actor idx => exact (congrArg Phase.isLive allowed).symm
  | popped actor idx => exact (congrArg Phase.isLive allowed).symm
  | recycled actor idx =>
      rcases allowed with held | emptied
      · exact (congrArg Phase.isLive held).symm
      · exact (congrArg Phase.isLive emptied).symm
  | leaked actor idx =>
      rcases allowed with held | emptied
      · exact (congrArg Phase.isLive held).symm
      · exact (congrArg Phase.isLive emptied).symm
  | wrote actor idx stored => exact (congrArg Phase.isLive allowed.1).symm
  | armed actor idx =>
      obtain ⟨stored, rfl⟩ := allowed
      rfl
  | published actor key stored => simp [Event.publishes] at published
  | retired actor key => simp [Event.retires] at retired
  | gaveUp actor idx => cases phase <;> rfl
  | released actor idx =>
      obtain ⟨key, stored, remover, rfl, _⟩ := allowed
      rfl
  | dropped actor idx data =>
      obtain ⟨key, stored, rfl, _⟩ := allowed
      rfl
  | counted | discounted | allocated | installed | deallocated => rfl

/-- An event about another slot is tallied elsewhere. -/
theorem Event.count_of_apart {event : Event T K V} {idx : Nat}
    (apart : event.slot ≠ some idx)
    : (event.publishes.map Prod.fst).count idx = 0
      ∧ (event.retires.map Prod.fst).count idx = 0 := by
  cases event with
  | published actor key stored =>
      have other : idx ≠ KeyData.idx key := fun same => apart (congrArg some same.symm)
      simp [Event.publishes, Event.retires, KeyData.place, other]
  | retired actor key =>
      have other : idx ≠ KeyData.idx key := fun same => apart (congrArg some same.symm)
      simp [Event.publishes, Event.retires, KeyData.place, other]
  | _ => exact ⟨rfl, rfl⟩

/-- A slot has been published once more than retired exactly while it is live, by induction
on the trace.
-/
theorem Lawful.published_eq [DecidableEq T] {trace : List (Event T K V)}
    (lawful : Lawful trace) (idx : Nat)
    : ((tally Event.publishes trace).map Prod.fst).count idx
      = ((tally Event.retires trace).map Prod.fst).count idx
        + if (phaseOf trace idx).isLive then 1 else 0 := by
  induction trace with
  | nil => simp [tally, phaseOf, Phase.isLive]
  | cons event earlier ih =>
      obtain ⟨allowed, lawful⟩ := lawful
      have before := ih lawful
      rw [tally_cons, tally_cons, Multiset.map_add, Multiset.map_add, Multiset.count_add,
        Multiset.count_add, before]
      by_cases about : event.slot = some idx
      · have allowed := allowed idx about
        rw [phaseOf_cons about, Function.update_self]
        generalize phaseOf earlier idx = phase at allowed
        cases event with
        | published actor key stored =>
            cases about
            cases (show phase = .armed actor stored from allowed)
            simp [Event.publishes, Event.retires, KeyData.place, Phase.advance, Phase.isLive]
            omega
        | retired actor key =>
            cases about
            obtain ⟨key', stored, rfl, _⟩ := allowed
            simp [Event.publishes, Event.retires, KeyData.place, Phase.advance, Phase.isLive]
            omega
        | _ =>
            rw [Phase.isLive_advance allowed rfl rfl]
            simp [Event.publishes, Event.retires]
      · have kept : phaseOf (event :: earlier) idx = phaseOf earlier idx := by
          simp [phaseOf, about]
        obtain ⟨publishes, retires⟩ := Event.count_of_apart about
        rw [kept, publishes, retires, zero_add, zero_add]

namespace Sys

/-- The slots with an odd version. -/
def occupied (s : Sys T K V E) : Finset Nat :=
  (Finset.range s.len).filter fun idx => (s.slots idx).version % 2 = 1

section

variable [DecidableEq T] [Fintype T] {s : Sys T K V E} {free : List Nat}

/-- The slots with an odd version are the live ones. -/
theorem Inv.isLive_iff (inv : s.Inv free) (idx : Nat)
    : ((s.view free).phase idx).isLive = true ↔ idx ∈ s.occupied := by
  simp only [Sys.occupied, Finset.mem_filter, Finset.mem_range]
  constructor
  · intro live
    cases phase : (s.view free).phase idx with
    | live key stored =>
        have fits := inv.owned.slots idx
        rw [phase] at fits
        refine ⟨inv.owned.lt_len (by simp [phase]), ?_⟩
        show (s.slots idx).version % 2 = 1
        rw [show (s.slots idx).version = KeyData.version key from fits.1]
        exact KeyData.version_odd key
    | _ =>
        rw [phase] at live
        cases live
  · rintro ⟨_, odd⟩
    obtain ⟨key, stored, phase⟩ := inv.owned.live_of_version idx rfl odd
    rw [phase]
    rfl

/-- Publications are removals and what is still occupied. -/
theorem Inv.published_eq (inv : s.Inv free)
    : (tally Event.publishes s.trace).map Prod.fst
      = (tally Event.retires s.trace).map Prod.fst + s.occupied.val := by
  ext idx
  rw [Multiset.count_add]
  have lawful : Lawful s.trace := inv.owned.lawful
  have live : (phaseOf s.trace idx).isLive = true ↔ idx ∈ s.occupied := inv.isLive_iff idx
  rw [lawful.published_eq idx]
  congr 1
  by_cases member : idx ∈ s.occupied
  · rw [if_pos (live.mpr member)]
    exact (Multiset.count_eq_one_of_mem s.occupied.nodup member).symm
  · rw [if_neg fun held => member (live.mp held)]
    exact (Multiset.count_eq_zero_of_notMem member).symm

/-- The counter is the number of occupied slots when nothing is left to count and no slot was
lost.
-/
theorem Tallied.numElems_eq (tallied : s.Tallied) (inv : s.Inv free)
    (nothingLost : s.NothingLost) (counting : ∀ t, (s.pc t).counting = 0)
    (discounting : ∀ t, (s.pc t).discounting = 0)
    : s.numElems = s.occupied.card := by
  obtain ⟨lost, removed, nothing⟩ := tallied.discounting
  have published := inv.published_eq
  simp only [tallied.counting, removed, nothing nothingLost, counting, discounting,
    Finset.sum_const_zero, add_zero] at published
  have cards := congrArg Multiset.card published
  rw [Multiset.card_add, Multiset.card_map, Multiset.card_map] at cards
  have few : s.occupied.card ≤ s.len := by
    have filtered := Finset.card_filter_le (Finset.range s.len) fun idx =>
      (s.slots idx).version % 2 = 1
    rwa [Finset.card_range] at filtered
  have bound : s.len < 2 ^ 32 := inv.owned.bound
  have elements := tallied.elements
  have word := tallied.word
  change _ = _ + s.occupied.card at cards
  omega

end

end Sys

end AtomicSlotMap
