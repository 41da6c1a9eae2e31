import AtomicSlotMap.Implementation.Runs

/-! The calls of a run. What each activity executes is the call recorded for it, and a program
counter tells whether that call has taken effect and with which result.
-/

namespace AtomicSlotMap

variable {T K V E : Type} [Key K]

/-- The result of a getter that found no guard; an iterator goes on. -/
def Getter.answered : Getter → Option (Res K V E)
  | .get _ => some (.got none)
  | .next _ => none

/-- The result of a call inside `push_free_index`. -/
def AfterPush.answered : AfterPush K E → Option (Res K V E)
  | .failed err => some (.failed err)
  | .removed _ => some (.removed true)
  | .unguarded => some .done
  | .missed getter => getter.answered

/-- The result of a call inside `ensure_chunk_exists`. -/
def AfterEnsure.answered : AfterEnsure → Option (Res K V E)
  | .pushed _ => none
  | .reserving _ _ => some .done

/-- The result with which the call at a program counter has taken effect, if it has. -/
def Pc.answered : Pc K V E → Option (Res K V E)
  | .waitForChunk _ next | .assertRefCount _ next | .assertVersion _ next => next.answered
  | .ret res => some res
  | .insertCount key stored => some (.inserted key stored)
  | .ensureLoad _ after | .ensureAlloc _ after | .ensureCas _ _ after
  | .ensureDealloc _ after => after.answered
  | .pushLoad _ after | .pushStore _ _ after | .pushCas _ _ after
  | .dropValue _ after => after.answered
  | .removeDec _ | .removeCount _ => some (.removed true)
  | .acquireDec _ getter => getter.answered
  | .unguardDec _ | .reserveLen _ | .reserveSlots _ | .vecReserve _ => some .done
  | _ => none

/-- The operation a getter belongs to. -/
def Getter.Serves (key : K) (op : Op K) : Getter → Prop
  | .get owning => op = .get key owning
  | .next _ => op.isNext = true

/-- The operation a getter goes on with after it found no guard. -/
def Getter.Resumes (op : Op K) : Getter → Prop
  | .get _ => True
  | .next _ => op.isNext = true

def AfterPush.Serves (op : Op K) : AfterPush K E → Prop
  | .missed getter => getter.Resumes op
  | _ => True

def AfterEnsure.Serves (op : Op K) : AfterEnsure → Prop
  | .pushed _ => op = .tryInsertWithKey
  | .reserving _ _ => True

/-- The operations a program counter belongs to, unless their result is fixed. -/
def Pc.Serves (op : Op K) : Pc K V E → Prop
  | .idle | .iterating _ => False
  | .waitForChunk _ next | .assertRefCount _ next | .assertVersion _ next => next.Serves op
  | .popLoad | .popNext _ _ | .popCas _ _ _ | .insertVersion _ | .pushZeroed | .closure _ _
  | .insertWrite _ _ _ | .insertRefCount _ _ _ | .insertPublish _ _ _ =>
      op = .tryInsertWithKey
  | .ensureLoad _ after | .ensureAlloc _ after | .ensureCas _ _ after
  | .ensureDealloc _ after => after.Serves op
  | .pushLoad _ after | .pushStore _ _ after | .pushCas _ _ after
  | .dropValue _ after => after.Serves op
  | .removeLen key | .removeVersion key | .removeCas key _ => op = .remove key
  | .getLen key getter | .acquireLoad key getter | .acquireCas key getter _
  | .acquireVersion key getter => getter.Serves key op
  | .acquireDec _ getter => getter.Resumes op
  | .containsLen key | .containsVersion key => op = .containsKey key
  | .nextLen _ | .nextGet _ | .nextVersion _ => op.isNext = true
  | .cloneInc guard => op = .cloneGuard guard.id
  | .lenLoad => op = .lossyLen
  | .isEmptyLoad => op = .lossyIsEmpty
  | .capacityLoad _ _ => op = .capacity
  | _ => True

/-- An activity between calls. -/
def Pc.Rests (pc : Pc K V E) : Prop := pc = .idle ∨ ∃ currentIdx, pc = .iterating currentIdx

/-- An activity in a call that has not panicked. -/
def Pc.busy : Pc K V E → Bool
  | .idle | .iterating _ | .unwinding => false
  | _ => true

section

variable {dbg : Bool} {s : Sys T K V E} {pc pc' : Pc K V E} {op : Op K} {res : Res K V E}

attribute [local simp] Pc.answered

omit [Key K] in
theorem Pc.awake_of_busy (busy : pc.busy = true) : pc ≠ .unwinding ∧ ¬ pc.Rests := by
  refine ⟨?_, ?_⟩
  · rintro rfl
    cases busy
  · rintro (rfl | ⟨_, rfl⟩) <;> cases busy

omit [Key K] in
theorem Pc.Serves.not_rests (serves : pc.Serves op) : ¬ pc.Rests := by
  rintro (rfl | ⟨_, rfl⟩) <;> exact serves

omit [Key K] in
theorem Res.rests_rest (res : Res K V E) : res.rest.Rests := by
  cases res with
  | next item currentIdx => exact Or.inr ⟨currentIdx, rfl⟩
  | _ => exact Or.inl rfl

omit [Key K] in
@[simp] theorem Getter.answered_missed (getter : Getter)
    : (getter.missed : Pc K V E).answered = getter.answered := by
  cases getter <;> rfl

omit [Key K] in
@[simp] theorem AfterPush.answered_resume (after : AfterPush K E)
    : (after.resume : Pc K V E).answered = after.answered := by
  cases after <;> simp [AfterPush.resume, AfterPush.answered, Pc.answered]

omit [Key K] in
@[simp] theorem AfterEnsure.answered_resume (after : AfterEnsure)
    : (after.resume : Pc K V E).answered = after.answered := by
  cases after with
  | pushed idx => rfl
  | reserving chunk maxChunk =>
      simp only [AfterEnsure.resume]
      split <;> rfl

omit [Key K] in
@[simp] theorem Pc.answered_exclusivelyOwned (dbg : Bool) (idx : Nat) (next : Pc K V E)
    : (Pc.exclusivelyOwned dbg idx next).answered = next.answered := by
  cases dbg <;> rfl

omit [Key K] in
@[simp] theorem Pc.answered_pushFreeIndex (dbg : Bool) (idx : Nat) (after : AfterPush K E)
    : (Pc.pushFreeIndex dbg idx after : Pc K V E).answered = after.answered := by
  cases dbg <;> rfl

omit [Key K] in
@[simp] theorem Pc.answered_popLoop (head updates : Nat)
    : (Pc.popLoop head updates : Pc K V E).answered = none := by
  rw [Pc.popLoop]
  split <;> rfl

omit [Key K] in
theorem Getter.serves_missed {getter : Getter} (serves : getter.Resumes op)
    : (getter.missed : Pc K V E).Serves op := by
  cases getter with
  | get owning => trivial
  | next currentIdx => exact serves

omit [Key K] in
theorem AfterPush.serves_resume {after : AfterPush K E} (serves : after.Serves op)
    : (after.resume : Pc K V E).Serves op := by
  cases after with
  | missed getter => exact Getter.serves_missed serves
  | _ => trivial

omit [Key K] in
theorem AfterEnsure.serves_resume {after : AfterEnsure} (serves : after.Serves op)
    : (after.resume : Pc K V E).Serves op := by
  cases after with
  | pushed idx => exact serves
  | reserving chunk maxChunk =>
      simp only [AfterEnsure.resume]
      split <;> trivial

omit [Key K] in
theorem Pc.serves_exclusivelyOwned {idx : Nat} (next : Pc K V E) (serves : next.Serves op)
    : (Pc.exclusivelyOwned dbg idx next).Serves op := by
  cases dbg <;> exact serves

omit [Key K] in
theorem Pc.serves_pushFreeIndex {idx : Nat} {after : AfterPush K E}
    (serves : after.Serves op)
    : (Pc.pushFreeIndex dbg idx after : Pc K V E).Serves op :=
  Pc.serves_exclusivelyOwned (.pushLoad idx after) serves

omit [Key K] in
theorem Pc.serves_popLoop {head updates : Nat} (serves : op = .tryInsertWithKey)
    : (Pc.popLoop head updates : Pc K V E).Serves op := by
  rw [Pc.popLoop]
  split <;> exact serves

/-- A silent move stays in its call, by cases on the move. -/
theorem Pc.Goes.serves (goes : pc.Goes dbg s pc') (serves : pc.Serves op)
    : pc'.Serves op := by
  cases goes with
  | popLoad | popAgain => exact Pc.serves_popLoop serves
  | closureOk idx version value =>
      exact Pc.serves_exclusivelyOwned (.insertWrite idx version value) serves
  | ensurePresent chunk after present => exact AfterEnsure.serves_resume serves
  | _ => exact serves

/-- A silent move takes no effect, by cases on the move. -/
theorem Pc.Goes.answered (goes : pc.Goes dbg s pc') : pc'.answered = pc.answered := by
  cases goes <;> simp [Pc.answered, AfterEnsure.answered, Getter.answered]

/-- Iterators come and go between calls; other moves are made inside one. -/
theorem Pc.Goes.rests (goes : pc.Goes dbg s pc') (rests : pc.Rests) : pc'.Rests := by
  rcases rests with rfl | ⟨_, rfl⟩
  · cases goes with
    | iterate => exact Or.inr ⟨0, rfl⟩
  · cases goes with
    | endIterate currentIdx => exact Or.inl rfl

theorem Pc.Goes.awake (goes : pc.Goes dbg s pc') : pc ≠ .unwinding := by
  rintro rfl
  cases goes

theorem Pc.Answers.pending (answers : pc.Answers dbg s res pc') : pc.answered = none := by
  cases answers <;> rfl

theorem Pc.Answers.answered (answers : pc.Answers dbg s res pc')
    : pc'.answered = some res := by
  cases answers <;> simp [Pc.answered, AfterPush.answered, Getter.answered]

theorem Pc.Answers.serves (answers : pc.Answers dbg s res pc') : pc'.Serves op := by
  cases answers with
  | closureErr idx version err => exact Pc.serves_pushFreeIndex trivial
  | _ => trivial

theorem Pc.Answers.busy (answers : pc.Answers dbg s res pc') : pc.busy = true := by
  cases answers <;> rfl

theorem Pc.Fails.busy (fails : pc.Fails dbg s) : pc.busy = true := by
  cases fails <;> rfl

omit [Key K] in
theorem Pc.Calls.rests (calls : pc.Calls op) : pc.Rests := by
  rcases calls with ⟨idle, _⟩ | ⟨currentIdx, iterating, _⟩
  · exact Or.inl idle
  · exact Or.inr ⟨currentIdx, iterating⟩

theorem Op.Starts.serves (starts : op.Starts s pc) : pc.Serves op := by
  cases starts with
  | cloneGuard id guard member named => exact named ▸ rfl
  | _ => rfl

theorem Op.Starts.pending (starts : op.Starts s pc) : pc.answered = none := by
  cases starts <;> rfl

/-- A decrement takes no effect, and both ways on stay in the call. -/
theorem Pc.Decrements.answered {needsDrop otherwise : Pc K V E} {idx : Nat}
    (decrements : pc.Decrements idx needsDrop otherwise)
    : needsDrop.answered = pc.answered ∧ otherwise.answered = pc.answered := by
  cases decrements <;> simp [Pc.answered, AfterPush.answered]

theorem Pc.Decrements.serves {needsDrop otherwise : Pc K V E} {idx : Nat}
    (decrements : pc.Decrements idx needsDrop otherwise) (serves : pc.Serves op)
    : needsDrop.Serves op ∧ otherwise.Serves op := by
  cases decrements with
  | acquire key getter => exact ⟨serves, Getter.serves_missed serves⟩
  | _ => exact ⟨trivial, trivial⟩

theorem Pc.Decrements.busy {needsDrop otherwise : Pc K V E} {idx : Nat}
    (decrements : pc.Decrements idx needsDrop otherwise)
    : pc.busy = true := by
  cases decrements <;> rfl

end

-----------------------------------------------------------------------------------------
-- Running calls
-----------------------------------------------------------------------------------------

/-- The call an event of a history is about. -/
def recordId : HistoryEvent K V E → Nat
  | .call id _ | .lin id _ _ | .ret id _ | .unwound id => id

/-- A call of the history that the program counter executes. -/
structure Running (history : List (HistoryEvent K V E)) (id : Nat) (op : Op K)
    (pc : Pc K V E) : Prop where
  called : .call id op ∈ history
  unended : ¬ Library.Ended history id
  serves : pc.Serves op
  effect : ∀ res, pc.answered = some res → .lin id op res ∈ history
  pending
    : pc.answered = none → pc ≠ .unwinding → ∀ other res, .lin id other res ∉ history

omit [Key K] in
/-- Events of another call end only that one. -/
theorem ended_append {history events : List (HistoryEvent K V E)} {id other : Nat}
    (about : ∀ event ∈ events, recordId event = other) (apart : id ≠ other)
    : Library.Ended (history ++ events) id ↔ Library.Ended history id := by
  constructor
  · rintro ⟨event, member, ends⟩
    rcases List.mem_append.mp member with before | now
    · exact ⟨event, before, ends⟩
    · have named := about event now
      cases event <;> cases ends <;> exact absurd named apart
  · rintro ⟨event, member, ends⟩
    exact ⟨event, List.mem_append_left _ member, ends⟩

omit [Key K] in
/-- Events of another call do not concern a running one. -/
theorem Running.frame {history events : List (HistoryEvent K V E)} {id other : Nat}
    {op : Op K} {pc : Pc K V E} (running : Running history id op pc)
    (about : ∀ event ∈ events, recordId event = other) (apart : id ≠ other)
    : Running (history ++ events) id op pc where
  called := List.mem_append_left _ running.called
  unended := fun ended => running.unended ((ended_append about apart).mp ended)
  serves := running.serves
  effect := fun res answered => List.mem_append_left _ (running.effect res answered)
  pending := by
    intro none awake op' res member
    rcases List.mem_append.mp member with before | now
    · exact running.pending none awake op' res before
    · exact apart (about _ now)

/-- Each activity in a call executes the call recorded for it, and no two the same. -/
structure Sys.Tracked (s : Sys T K V E) : Prop where
  recorded : Library.Recorded s.history
  numbered : ∀ id op, .call id op ∈ s.history → id < s.calls
  running : ∀ t id op, s.current t = some (id, op) → Running s.history id op (s.pc t)
  resting : ∀ t, s.current t = none → (s.pc t).Rests
  distinct
    : ∀ t u id op op', s.current t = some (id, op) → s.current u = some (id, op') → t = u

namespace Sys.Tracked

variable [DecidableEq T] {s s' : Sys T K V E} {t : T} {dbg : Bool}

omit [Key K] [DecidableEq T] in
/-- An activity that does not rest executes a call. -/
theorem exists_running (tracked : s.Tracked) (awake : ¬ (s.pc t).Rests)
    : ∃ id op, s.current t = some (id, op) ∧ Running s.history id op (s.pc t) := by
  cases current : s.current t with
  | none => exact absurd (tracked.resting t current) awake
  | some call => exact ⟨call.1, call.2, rfl, tracked.running t _ _ current⟩

omit [Key K] [DecidableEq T] in
/-- A resting activity executes no call. -/
theorem current_eq_none (tracked : s.Tracked) (rests : (s.pc t).Rests)
    : s.current t = none := by
  cases current : s.current t with
  | none => rfl
  | some call => exact absurd rests (tracked.running t _ _ current).serves.not_rests

omit [Key K] [DecidableEq T] in
/-- A step that records nothing stays in its call, or unwinds it. -/
theorem silent (tracked : s.Tracked) (history : s'.history = s.history)
    (current : s'.current = s.current) (calls : s'.calls = s.calls)
    (pcs : ∀ other ≠ t, s'.pc other = s.pc other)
    (serves : ∀ op, (s.pc t).Serves op → (s'.pc t).Serves op)
    (answered
      : ((s'.pc t).answered = (s.pc t).answered ∧ s.pc t ≠ .unwinding)
        ∨ s'.pc t = .unwinding)
    (rests : (s.pc t).Rests → (s'.pc t).Rests)
    : s'.Tracked where
  recorded := history ▸ tracked.recorded
  numbered := by
    rw [history, calls]
    exact tracked.numbered
  running := by
    intro other id op found
    rw [current] at found
    rw [history]
    have before := tracked.running other id op found
    by_cases self : other = t
    · subst other
      refine ⟨before.called, before.unended, serves op before.serves, ?_, ?_⟩
      · intro res took
        rcases answered with ⟨same, _⟩ | unwinding
        · exact before.effect res (same.symm.trans took)
        · rw [unwinding] at took
          cases took
      · intro none awake
        rcases answered with ⟨same, before'⟩ | unwinding
        · exact before.pending (same.symm.trans none) before'
        · exact absurd unwinding awake
    · rw [pcs other self]
      exact before
  resting := by
    intro other none
    rw [current] at none
    by_cases self : other = t
    · subst other
      exact rests (tracked.resting t none)
    · rw [pcs other self]
      exact tracked.resting other none
  distinct := by
    rw [current]
    exact tracked.distinct

omit [Key K] [DecidableEq T] in
/-- A step that records events of one call only: they continue the history, and the activity
rests afterwards or executes that call.
-/
theorem updated (tracked : s.Tracked) (id : Nat) (events : List (HistoryEvent K V E))
    (others : ∀ u ≠ t, ∀ op, s.current u ≠ some (id, op))
    (about : ∀ event ∈ events, recordId event = id)
    (history : s'.history = s.history ++ events) (recorded : Library.Recorded s'.history)
    (calls : s.calls ≤ s'.calls) (number : id < s'.calls)
    (current : ∀ u ≠ t, s'.current u = s.current u) (pcs : ∀ u ≠ t, s'.pc u = s.pc u)
    (mine
      : (s'.current t = none ∧ (s'.pc t).Rests)
        ∨ ∃ op, s'.current t = some (id, op) ∧ Running s'.history id op (s'.pc t))
    : s'.Tracked := by
  have named {op : Op K} {other : Nat} (found : s'.current t = some (other, op)) :
      other = id := by
    rcases mine with ⟨none, _⟩ | ⟨op', some, _⟩
    · cases none.symm.trans found
    · cases some.symm.trans found
      rfl
  refine ⟨recorded, ?_, ?_, ?_, ?_⟩
  · intro other op member
    rw [history] at member
    rcases List.mem_append.mp member with before | now
    · exact Nat.lt_of_lt_of_le (tracked.numbered other op before) calls
    · have same : other = id := about _ now
      exact same ▸ number
  · intro u other op found
    by_cases self : u = t
    · subst u
      rcases mine with ⟨none, _⟩ | ⟨op', some, running⟩
      · cases none.symm.trans found
      · cases some.symm.trans found
        exact running
    · rw [current u self] at found
      rw [history, pcs u self]
      refine (tracked.running u other op found).frame about ?_
      rintro rfl
      exact others u self op found
  · intro u none
    by_cases self : u = t
    · subst u
      rcases mine with ⟨_, rests⟩ | ⟨op', some, _⟩
      · exact rests
      · cases none.symm.trans some
    · rw [current u self] at none
      rw [pcs u self]
      exact tracked.resting u none
  · intro u v other op op' first second
    by_cases self : u = t
    · by_cases self' : v = t
      · rw [self, self']
      · subst u
        cases named first
        rw [current v self'] at second
        exact absurd second (others v self' op')
    · by_cases self' : v = t
      · subst v
        cases named second
        rw [current u self] at first
        exact absurd first (others u self op)
      · rw [current u self] at first
        rw [current v self'] at second
        exact tracked.distinct u v other op op' first second

omit [Key K] [DecidableEq T] in
/-- The number of a running call is not that of another activity. -/
theorem others (tracked : s.Tracked) {id : Nat} {op : Op K}
    (current : s.current t = some (id, op))
    : ∀ u ≠ t, ∀ op', s.current u ≠ some (id, op') :=
  fun u apart op' found => apart (tracked.distinct u t id op' op found current)

omit [Key K] in
/-- A call takes effect. -/
theorem answered (tracked : s.Tracked) {res : Res K V E} {pc : Pc K V E}
    (busy : (s.pc t).busy = true) (before : (s.pc t).answered = none)
    (after : pc.answered = some res) (serves : ∀ op, (s.pc t).Serves op → pc.Serves op)
    : ((s.answer t res).goto t pc).Tracked := by
  have awake := Pc.awake_of_busy busy
  obtain ⟨id, op, current, running⟩ := tracked.exists_running awake.2
  have first := running.pending before awake.1
  have recorded := Library.Recorded.lin id op res tracked.recorded running.called first
    running.unended
  have took : Running (s.history ++ [.lin id op res]) id op pc := by
    refine ⟨List.mem_append_left _ running.called, ?_, serves op running.serves, ?_, ?_⟩
    · intro ended
      have apart : (Library.Record.lin id op res).ends ≠ some id := by simp [Library.Record.ends]
      exact running.unended ((Library.ended_concat.mp ended).resolve_right apart)
    · intro res' same
      cases after.symm.trans same
      exact List.mem_append_right _ List.mem_cons_self
    · intro none
      cases after.symm.trans none
  simp only [answer, current]
  refine tracked.updated (t := t) id [.lin id op res] (tracked.others current) ?_
    rfl recorded (Nat.le_refl _) (tracked.numbered id op running.called) (fun _ _ => rfl)
    (fun u apart => pc_goto_of_ne _ t apart pc) (Or.inr ⟨op, current, ?_⟩)
  · simp [recordId]
  · rw [pc_goto_self]
    exact took

omit [Key K] [DecidableEq T] in
/-- The next number is not in use. -/
theorem fresh (tracked : s.Tracked) (op : Op K)
    : .call s.calls op ∉ s.history ∧ ¬ Library.Ended s.history s.calls
      ∧ (∀ op' res, .lin s.calls op' res ∉ s.history)
      ∧ ∀ u op', s.current u ≠ some (s.calls, op') := by
  have unused (op' : Op K) : .call s.calls op' ∉ s.history := fun member =>
    Nat.lt_irrefl _ (tracked.numbered _ _ member)
  refine ⟨unused op, ?_, ?_, ?_⟩
  · intro ended
    obtain ⟨op', member⟩ := tracked.recorded.called_of_ended ended
    exact unused op' member
  · intro op' res member
    exact unused op' (tracked.recorded.called_of_lin member)
  · intro u op' found
    exact unused op' (tracked.running u _ _ found).called

omit [Key K] in
/-- A call is made. -/
theorem began (tracked : s.Tracked) {op : Op K} {pc : Pc K V E}
    (serves : pc.Serves op) (pending : pc.answered = none)
    : ((s.begin t op).goto t pc).Tracked := by
  obtain ⟨_, unended, unanswered, unused⟩ := tracked.fresh op
  have recorded := Library.Recorded.call s.calls op tracked.recorded
    fun other => (tracked.fresh other).1
  refine tracked.updated (t := t) s.calls [.call s.calls op]
    (fun u _ op' => unused u op') ?_ rfl recorded (Nat.le_succ _) (Nat.lt_succ_self _) ?_
    (fun u apart => pc_goto_of_ne _ t apart pc) (Or.inr ⟨op, ?_, ?_⟩)
  · simp [recordId]
  · intro u apart
    simp [begin, goto, apart]
  · simp [begin, goto]
  · rw [pc_goto_self]
    refine ⟨List.mem_append_right _ List.mem_cons_self, ?_, serves, ?_, ?_⟩
    · intro ended
      exact unended ((Library.ended_concat.mp ended).resolve_right (by simp [Library.Record.ends]))
    · intro res same
      cases pending.symm.trans same
    · intro _ _ op' res member
      rcases List.mem_append.mp member with before | now
      · exact unanswered op' res before
      · cases List.mem_singleton.mp now

omit [Key K] in
/-- A call is made and takes effect at once. -/
theorem beganAnswered (tracked : s.Tracked) {op : Op K} {res : Res K V E} {pc : Pc K V E}
    (serves : pc.Serves op) (answered : pc.answered = some res)
    : (((s.begin t op).answer t res).goto t pc).Tracked := by
  obtain ⟨_, unended, unanswered, unused⟩ := tracked.fresh op
  have called := Library.Recorded.call s.calls op tracked.recorded
    fun other => (tracked.fresh other).1
  have open' : ¬ Library.Ended (s.history ++ [.call s.calls op]) s.calls := fun ended =>
    unended ((Library.ended_concat.mp ended).resolve_right (by simp [Library.Record.ends]))
  have recorded := Library.Recorded.lin s.calls op res called
    (List.mem_append_right _ List.mem_cons_self) (by
      intro op' res' member
      rcases List.mem_append.mp member with before | now
      · exact unanswered op' res' before
      · cases List.mem_singleton.mp now) open'
  have current : (s.begin t op).current t = some (s.calls, op) := by simp [begin]
  simp only [answer, current]
  refine tracked.updated (t := t) s.calls
    [.call s.calls op, .lin s.calls op res] (fun u _ op' => unused u op') ?_ ?_
    recorded (Nat.le_succ _) (Nat.lt_succ_self _) ?_
    (fun u apart => pc_goto_of_ne _ t apart pc) (Or.inr ⟨op, current, ?_⟩)
  · simp [recordId]
  · simp [begin, goto]
  · intro u apart
    simp [begin, goto, apart]
  · rw [pc_goto_self]
    refine ⟨by simp [begin, goto], ?_, serves, ?_, ?_⟩
    · intro ended
      exact open' ((Library.ended_concat.mp ended).resolve_right (by simp [Library.Record.ends]))
    · intro res' same
      cases answered.symm.trans same
      exact List.mem_append_right _ List.mem_cons_self
    · intro none
      cases answered.symm.trans none

omit [Key K] in
/-- A call ends. -/
theorem finished (tracked : s.Tracked) {event : Nat → HistoryEvent K V E} {pc : Pc K V E}
    (awake : ¬ (s.pc t).Rests) (about : ∀ id, recordId (event id) = id)
    (ends
      : ∀ id op, Running s.history id op (s.pc t) →
          Library.Recorded (s.history ++ [event id]))
    (rests : pc.Rests)
    : ((s.finish t event).goto t pc).Tracked := by
  obtain ⟨id, op, current, running⟩ := tracked.exists_running awake
  simp only [finish, current]
  refine tracked.updated (t := t) id [event id] (tracked.others current) ?_ rfl
    (ends id op running) (Nat.le_refl _) (tracked.numbered id op running.called) ?_
    (fun u apart => pc_goto_of_ne _ t apart pc) (Or.inl ⟨?_, ?_⟩)
  · simp [about]
  · intro u apart
    simp [goto, apart]
  · simp [goto]
  · rw [pc_goto_self]
    exact rests

omit [Key K] in
theorem returned (tracked : s.Tracked) {res : Res K V E} (about : s.pc t = .ret res)
    : ((s.finish t (.ret · res)).goto t res.rest).Tracked := by
  refine tracked.finished ?_ (fun _ => rfl) ?_ res.rests_rest
  · rw [about]
    rintro (absurd | ⟨_, absurd⟩) <;> cases absurd
  · intro id op running
    exact .ret id op res tracked.recorded (running.effect res (by rw [about]; rfl))
      running.unended

omit [Key K] in
theorem unwound (tracked : s.Tracked) (about : s.pc t = .unwinding)
    : ((s.finish t .unwound).goto t .idle).Tracked := by
  refine tracked.finished ?_ (fun _ => rfl) ?_ (Or.inl rfl)
  · rw [about]
    rintro (absurd | ⟨_, absurd⟩) <;> cases absurd
  · intro id op running
    exact .unwound id op tracked.recorded running.called running.unended

omit [Key K] in
/-- A panic takes no effect. -/
theorem failed (tracked : s.Tracked) (busy : (s.pc t).busy = true) : (s.unwind t).Tracked := by
  refine tracked.silent (t := t) (history_unwind s t) (current_unwind s t) (calls_unwind s t)
    (fun _ apart => pc_unwind_of_ne s t apart) ?_ (Or.inr (pc_unwind_self s t)) ?_
  · intro op _
    rw [pc_unwind_self]
    trivial
  · exact fun rests => absurd rests (Pc.awake_of_busy busy).2

omit [Key K] in
/-- A step that goes on within its call and records nothing. -/
theorem going (tracked : s.Tracked) {pc : Pc K V E} (history : s'.history = s.history)
    (current : s'.current = s.current) (calls : s'.calls = s.calls)
    (pcs : s'.pc = Function.update s.pc t pc)
    (serves : ∀ op, (s.pc t).Serves op → pc.Serves op)
    (answered : pc.answered = (s.pc t).answered)
    (busy : (s.pc t).busy = true)
    : s'.Tracked := by
  have awake := Pc.awake_of_busy busy
  have mine : s'.pc t = pc := by rw [pcs, Function.update_self]
  refine tracked.silent (t := t) history current calls ?_ ?_ (Or.inl ⟨?_, awake.1⟩) ?_
  · intro other apart
    rw [pcs, Function.update_of_ne apart]
  · rw [mine]
    exact serves
  · rw [mine]
    exact answered
  · exact fun rests => absurd rests awake.2

omit [Key K] in
/-- A step that only changes the element counter and notes so. -/
theorem recounted (tracked : s.Tracked) {count : Nat} {event : Event T K V} {res : Res K V E}
    (answered : (s.pc t).answered = some res) (busy : (s.pc t).busy = true)
    : (((s.setNumElems count).emit event).goto t (.ret res)).Tracked :=
  tracked.going rfl rfl rfl rfl (fun _ _ => trivial) answered.symm busy

omit [Key K] [DecidableEq T] in
/-- Only the program counters and the records of calls matter. -/
theorem congr (tracked : s.Tracked) (history : s'.history = s.history)
    (current : s'.current = s.current) (calls : s'.calls = s.calls) (pcs : s'.pc = s.pc)
    : s'.Tracked where
  recorded := history ▸ tracked.recorded
  numbered := by
    rw [history, calls]
    exact tracked.numbered
  running := by
    rw [history, current, pcs]
    exact tracked.running
  resting := by
    rw [current, pcs]
    exact tracked.resting
  distinct := by
    rw [current]
    exact tracked.distinct

/-- Every step keeps track of the calls, by cases on the move. -/
theorem moves (tracked : s.Tracked) (moves : s.Moves dbg t s') : s'.Tracked := by
  cases moves with
  | stay => exact tracked
  | go pc goes =>
      refine tracked.silent (t := t) rfl rfl rfl (fun _ apart => pc_goto_of_ne s t apart pc)
        ?_ (Or.inl ⟨?_, goes.awake⟩) ?_
      · rw [pc_goto_self]
        exact fun op => goes.serves
      · rw [pc_goto_self]
        exact goes.answered
      · rw [pc_goto_self]
        exact goes.rests
  | answered res pc answers =>
      exact tracked.answered answers.busy answers.pending answers.answered
        fun _ _ => answers.serves
  | failed fails => exact tracked.failed fails.busy
  | popped old next seen about same =>
      refine tracked.going rfl rfl rfl rfl ?_ (by simp [about, Pc.answered]) (about ▸ rfl)
      rw [about]
      exact fun op serves => Pc.serves_exclusivelyOwned (.waitForChunk _ _) serves
  | pushed about =>
      refine tracked.going rfl rfl rfl rfl ?_ (by rw [about]; rfl) (about ▸ rfl)
      rw [about]
      exact fun op serves => serves
  | wrote idx version value about =>
      refine tracked.going rfl rfl rfl rfl ?_ (by rw [about]; rfl) (about ▸ rfl)
      rw [about]
      exact fun op serves => serves
  | armed idx version stored about =>
      refine tracked.going rfl rfl rfl rfl ?_ (by rw [about]; rfl) (about ▸ rfl)
      rw [about]
      exact fun op serves => serves
  | published idx version stored about =>
      have staged : ((s.setSlot idx { s.slots idx with version := version }).emit
          (.published t (KeyData.new idx version : K) stored)).Tracked :=
        tracked.congr rfl rfl rfl rfl
      exact staged.answered (show (s.pc t).busy = true by rw [about]; rfl)
        (show (s.pc t).answered = none by rw [about]; rfl) rfl fun _ _ => trivial
  | counted key stored about => exact tracked.recounted (by rw [about]; rfl) (about ▸ rfl)
  | allocated chunk after about =>
      refine tracked.going rfl rfl rfl rfl ?_ (by rw [about]; rfl) (about ▸ rfl)
      rw [about]
      exact fun op serves => serves
  | installed chunk new after about absent =>
      refine tracked.going rfl rfl rfl rfl ?_ (by simp [about, Pc.answered]) (about ▸ rfl)
      rw [about]
      exact fun op serves => AfterEnsure.serves_resume serves
  | deallocated new after about =>
      refine tracked.going rfl rfl rfl rfl ?_ (by simp [about, Pc.answered]) (about ▸ rfl)
      rw [about]
      exact fun op serves => AfterEnsure.serves_resume serves
  | linked idx old after about =>
      refine tracked.going rfl rfl rfl rfl ?_ (by rw [about]; rfl) (about ▸ rfl)
      rw [about]
      exact fun op serves => serves
  | recycled idx old after about same =>
      refine tracked.going rfl rfl rfl rfl ?_ (by simp [about, Pc.answered]) (about ▸ rfl)
      rw [about]
      exact fun op serves => AfterPush.serves_resume serves
  | dropped idx after about =>
      refine tracked.going rfl rfl rfl rfl ?_ (by simp [about, Pc.answered]) (about ▸ rfl)
      rw [about]
      exact fun op serves => Pc.serves_pushFreeIndex serves
  | dropPanicked idx after about =>
      have staged : (s.dropInnerValue t idx).Tracked := tracked.congr rfl rfl rfl rfl
      exact staged.failed (show (s.pc t).busy = true by rw [about]; rfl)
  | retired key current about same =>
      simp only [removeExchange, if_pos same]
      have staged : ((s.setSlot (KeyData.idx key)
          { s.slots (KeyData.idx key) with version := wrappingAdd current 1 }).emit
          (.retired t key)).Tracked :=
        tracked.congr rfl rfl rfl rfl
      exact staged.answered (show (s.pc t).busy = true by rw [about]; rfl)
        (show (s.pc t).answered = none by rw [about]; rfl) rfl fun _ _ => trivial
  | decremented idx needsDrop otherwise decrements =>
      rw [decRefCount]
      split
      · exact tracked.going rfl rfl rfl rfl (fun _ serves => (decrements.serves serves).1)
          decrements.answered.1 decrements.busy
      · exact tracked.going rfl rfl rfl rfl (fun _ serves => (decrements.serves serves).2)
          decrements.answered.2 decrements.busy
  | discounted key about => exact tracked.recounted (by rw [about]; rfl) (about ▸ rfl)
  | acquired key getter refcount about same =>
      refine tracked.going rfl rfl rfl rfl ?_ (by rw [about]; rfl) (about ▸ rfl)
      rw [about]
      exact fun op serves => serves
  | guarded key getter about same =>
      simp only [acquireCheck, if_pos same]
      generalize (⟨s.guardIds, key, getter.owning, (s.slots (KeyData.idx key)).data⟩
        : Guard K V) = guard
      have staged : (s.addGuard guard).Tracked := tracked.congr rfl rfl rfl rfl
      exact staged.answered (show (s.pc t).busy = true by rw [about]; rfl)
        (show (s.pc t).answered = none by rw [about]; rfl) rfl fun _ _ => trivial
  | cloned guard about =>
      rw [cloneGuard]
      generalize wrappingAdd (s.slots (KeyData.idx guard.key)).refCount 1 = count
      have raised : (s.setSlot (KeyData.idx guard.key)
          { s.slots (KeyData.idx guard.key) with refCount := count }).Tracked :=
        tracked.congr rfl rfl rfl rfl
      split
      · generalize (⟨s.guardIds, guard.key, true, guard.pointee⟩ : Guard K V) = clone
        have staged : ((s.setSlot (KeyData.idx guard.key)
            { s.slots (KeyData.idx guard.key) with refCount := count }).addGuard clone).Tracked :=
          raised.congr rfl rfl rfl rfl
        exact staged.answered (show (s.pc t).busy = true by rw [about]; rfl)
          (show (s.pc t).answered = none by rw [about]; rfl) rfl fun _ _ => trivial
      · exact raised.failed (show (s.pc t).busy = true by rw [about]; rfl)
  | began op pc calls starts => exact tracked.began starts.serves starts.pending
  | beganReserve additional calls => exact tracked.beganAnswered trivial rfl
  | beganDeref id guard calls found => exact tracked.beganAnswered trivial rfl
  | beganDrop id guard calls found unborrowed =>
      have taken : ({ s with guards := s.guards.eraseP (·.id == id) } : Sys T K V E).Tracked :=
        tracked.congr rfl rfl rfl rfl
      exact taken.beganAnswered trivial rfl
  | beganForget id guard calls found unborrowed =>
      have taken : ({
          s with
          guards := s.guards.eraseP (·.id == id)
          forgotten := guard :: s.forgotten
        } : Sys T K V E).Tracked :=
        tracked.congr rfl rfl rfl rfl
      exact taken.beganAnswered trivial rfl
  | returned res about => exact tracked.returned about
  | unwound about => exact tracked.unwound about

end Sys.Tracked

namespace Sys

variable [DecidableEq T] [Fintype T] {dbg : Bool} {s : Sys T K V E}

omit [Fintype T] [Key K] [DecidableEq T] in
/-- On the empty map there is no call. -/
theorem Tracked.withKey : (Sys.withKey T K V E).Tracked where
  recorded := .nil
  numbered := nofun
  running := nofun
  resting := fun _ _ => Or.inl rfl
  distinct := nofun

/-- Every state of a run, even beyond the limits of the words, keeps track of the calls; by
induction on the run.
-/
theorem tracked_of_run (run : Relation.ReflTransGen (Step dbg) (.withKey T K V E) s)
    : s.Tracked :=
  Library.ReflTransGen.invariant run .withKey fun _ _ tracked ⟨_, _, found⟩ =>
    tracked.moves (step_moves found)

/-- The states within the limits are states of runs. -/
theorem Reachable.run (reachable : Reachable dbg s)
    : Relation.ReflTransGen (Step dbg) (.withKey T K V E) s :=
  Relation.ReflTransGen.mono (fun _ _ ⟨t, choice, _, found⟩ => ⟨t, choice, found⟩) _ _ reachable

end Sys

end AtomicSlotMap
