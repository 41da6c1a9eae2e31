import AtomicSlotMap.History.Contents
import AtomicSlotMap.Implementation.Guards

/-! What the closures of insertions return. A program counter tells what the closure of its call
returned, until the call takes effect, and then the effect does.
-/

namespace AtomicSlotMap

variable {T K V E : Type} [Key K]

/-- What the closure of a call returned, as its result tells. -/
def Res.outcome? : Res K V E → Option (Choice K V E)
  | .inserted _ stored => some (.closureOk stored.value)
  | .failed err => some (.closureErr err)
  | _ => none

def AfterPush.outcome? : AfterPush K E → Option (Choice K V E)
  | .failed err => some (.closureErr err)
  | _ => none

/-- What the closure of the call at a program counter returned, if it has. -/
def Pc.outcome? : Pc K V E → Option (Choice K V E)
  | .waitForChunk _ next | .assertRefCount _ next | .assertVersion _ next => next.outcome?
  | .insertWrite _ _ value => some (.closureOk value)
  | .insertRefCount _ _ stored | .insertPublish _ _ stored | .insertCount _ stored =>
      some (.closureOk stored.value)
  | .pushLoad _ after | .pushStore _ _ after | .pushCas _ _ after
  | .dropValue _ after => after.outcome?
  | .ret res => res.outcome?
  | _ => none

section

variable {dbg : Bool} {s : Sys T K V E} {pc pc' : Pc K V E} {res : Res K V E}

omit [Key K] in
@[simp] theorem Pc.outcome?_exclusivelyOwned (idx : Nat) (next : Pc K V E)
    : (Pc.exclusivelyOwned dbg idx next).outcome? = next.outcome? := by
  cases dbg <;> rfl

omit [Key K] in
@[simp] theorem Pc.outcome?_pushFreeIndex (idx : Nat) (after : AfterPush K E)
    : (Pc.pushFreeIndex dbg idx after : Pc K V E).outcome? = after.outcome? := by
  cases dbg <;> rfl

omit [Key K] in
@[simp] theorem Pc.outcome?_popLoop (head updates : Nat)
    : (Pc.popLoop head updates : Pc K V E).outcome? = none := by
  rw [Pc.popLoop]
  split <;> rfl

omit [Key K] in
@[simp] theorem Getter.outcome?_missed (getter : Getter)
    : (getter.missed : Pc K V E).outcome? = none := by
  cases getter <;> rfl

omit [Key K] in
@[simp] theorem AfterPush.outcome?_resume (after : AfterPush K E)
    : (after.resume : Pc K V E).outcome? = after.outcome? := by
  cases after with
  | missed getter => exact getter.outcome?_missed
  | _ => rfl

omit [Key K] in
@[simp] theorem AfterEnsure.outcome?_resume (after : AfterEnsure)
    : (after.resume : Pc K V E).outcome? = none := by
  cases after with
  | pushed idx => rfl
  | reserving chunk maxChunk =>
      simp only [AfterEnsure.resume]
      split <;> rfl

omit [Key K] in
theorem AfterPush.outcome_of_answered {after : AfterPush K E} (took : after.answered = some res)
    : after.outcome? = res.outcome? := by
  cases after with
  | missed getter =>
      cases getter with
      | get owning =>
          cases took
          rfl
      | next currentIdx => cases took
  | _ =>
      cases took
      rfl

omit [Key K] in
/-- A call that has taken effect did so with what its closure returned, by induction on the waits.
-/
theorem Pc.outcome_of_answered (took : pc.answered = some res) : pc.outcome? = res.outcome? := by
  induction pc with
  | waitForChunk _ next ih | assertRefCount _ next ih | assertVersion _ next ih => exact ih took
  | pushLoad _ after | pushStore _ _ after | pushCas _ _ after | dropValue _ after =>
      exact AfterPush.outcome_of_answered took
  | ensureLoad _ after | ensureAlloc _ after | ensureCas _ _ after | ensureDealloc _ after =>
      cases after with
      | pushed idx => cases took
      | reserving chunk maxChunk =>
          cases took
          rfl
  | acquireDec _ getter =>
      cases getter with
      | get owning =>
          cases took
          rfl
      | next currentIdx => cases took
  | ret | insertCount | removeDec | removeCount | unguardDec | reserveLen | reserveSlots
  | vecReserve =>
      cases took
      rfl
  | _ => cases took

/-- A silent move leaves what the closure returned, unless that is when it returns. -/
theorem Pc.Goes.outcome (goes : pc.Goes dbg s pc')
    (elsewhere : ∀ idx version, pc ≠ .closure idx version)
    : pc'.outcome? = pc.outcome? := by
  cases goes with
  | closureOk idx version value => exact absurd rfl (elsewhere idx version)
  | popLoad | popAgain => exact Pc.outcome?_popLoop _ _
  | ensurePresent chunk after => exact after.outcome?_resume
  | _ => rfl

theorem Pc.Answers.outcome (answers : pc.Answers dbg s res pc')
    (elsewhere : ∀ idx version, pc ≠ .closure idx version)
    : pc'.outcome? = pc.outcome? := by
  cases answers with
  | closureErr idx version err => exact absurd rfl (elsewhere idx version)
  | _ => rfl

theorem Pc.Decrements.outcome {needsDrop otherwise : Pc K V E} {idx : Nat}
    (decrements : pc.Decrements idx needsDrop otherwise)
    : needsDrop.outcome? = pc.outcome? ∧ otherwise.outcome? = pc.outcome? := by
  cases decrements with
  | acquire key getter => exact ⟨rfl, getter.outcome?_missed⟩
  | _ => exact ⟨rfl, rfl⟩

theorem Op.Starts.outcome {op : Op K} (starts : op.Starts s pc) : pc.outcome? = none := by
  cases starts <;> rfl

omit [Key K] in
theorem Pc.outcome_of_calls {op : Op K} (calls : pc.Calls op) : pc.outcome? = none := by
  rcases calls with ⟨rfl, _⟩ | ⟨_, rfl, _⟩ <;> rfl

omit [Key K] in
theorem Pc.outcome_of_rests (rests : pc.Rests) : pc.outcome? = none := by
  rcases rests with rfl | ⟨_, rfl⟩ <;> rfl

end

namespace Sys

variable [DecidableEq T] {dbg : Bool} {s s' : Sys T K V E} {t : T} {pc : Pc K V E} {op : Op K}
  {res : Res K V E} {id : Nat} {outcome : Choice K V E}

omit [DecidableEq T] in
/-- An activity goes on with what the closure of its call returned until the call ends, by cases on
where a step leads.
-/
theorem Leads.outcome_eq (leads : s.Leads dbg t pc)
    (elsewhere : ∀ idx version, s.pc t ≠ .closure idx version)
    : pc.outcome? = (s.pc t).outcome? ∨ pc = .unwinding ∨ pc.Rests := by
  cases leads with
  | stay => exact Or.inl rfl
  | go pc goes => exact Or.inl (goes.outcome elsewhere)
  | answered res pc answers => exact Or.inl (answers.outcome elsewhere)
  | failed | dropPanicked | refused => exact Or.inr (Or.inl rfl)
  | released idx needsDrop otherwise decrements => exact Or.inl decrements.outcome.1
  | gaveUp idx needsDrop otherwise decrements => exact Or.inl decrements.outcome.2
  | began op pc calls starts =>
      exact Or.inl (starts.outcome.trans (Pc.outcome_of_calls calls).symm)
  | beganReserve _ calls | beganDeref _ _ calls | beganDrop _ _ calls | beganForget _ calls =>
      exact Or.inl (Pc.outcome_of_calls calls).symm
  | returned res about => exact Or.inr (Or.inr res.rests_rest)
  | unwound about => exact Or.inr (Or.inr (Or.inl rfl))
  | ensured after about =>
      left
      rw [after.outcome?_resume]
      rcases about with ⟨_, _, about⟩ | ⟨_, about⟩ <;> exact about ▸ rfl
  | guarded key getter guard about =>
      left
      rw [about]
      cases getter <;> rfl
  | popped _ _ _ about => exact Or.inl (about ▸ Pc.outcome?_exclusivelyOwned _ _)
  | recycled _ _ after about => exact Or.inl (about ▸ after.outcome?_resume)
  | dropped _ after about => exact Or.inl (about ▸ Pc.outcome?_pushFreeIndex _ after)
  | pushed about | wrote _ _ _ about | armed _ _ _ about | published _ _ _ about
  | counted _ _ about | allocated _ _ _ about | linked _ _ _ about | retired _ _ about
  | discounted _ about | acquired _ _ _ about | cloned _ _ about => exact Or.inl (about ▸ rfl)

/-- Where a call takes effect its result is known, by cases on the call. -/
theorem answered_of_takes (takes : s.Takes dbg t op res s') : (s'.pc t).answered = some res := by
  cases takes with
  | answered op res pc answers =>
      rw [pc_goto_self]
      exact answers.answered
  | inserted idx version stored about =>
      rw [publish, pc_goto_self]
      rfl
  | removed key current about same =>
      simp only [removeExchange, if_pos same, pc_goto_self]
      rfl
  | acquired op key getter serves about same =>
      simp only [acquireCheck, if_pos same, pc_goto_self]
      rfl
  | cloned guard about bounded =>
      simp only [cloneGuard, if_pos bounded, pc_goto_self]
      rfl
  | reserving | read | unguarding | forgot =>
      rw [pc_goto_self]
      rfl

variable [Fintype T]

/-- On a run to this state the closure of this call had this outcome. -/
def ClosureReturned (dbg : Bool) (s : Sys T K V E) (id : Nat) (outcome : Choice K V E) : Prop :=
  ∃ t op idx version before after,
    Reachable dbg before
    ∧ before.current t = some (id, op)
    ∧ before.pc t = .closure idx version
    ∧ before.Within t
    ∧ step dbg before t outcome = some after
    ∧ Relation.ReflTransGen (Next dbg) after s

/-- The outcome is that of later states. -/
theorem ClosureReturned.next (returned : s.ClosureReturned dbg id outcome)
    (next : Next dbg s s')
    : s'.ClosureReturned dbg id outcome := by
  obtain ⟨t, op, idx, version, before, after, reachable, current, about, within, found, run⟩ :=
    returned
  exact ⟨t, op, idx, version, before, after, reachable, current, about, within, found,
    run.tail next⟩

-----------------------------------------------------------------------------------------
-- What is told was returned
-----------------------------------------------------------------------------------------

/-- What program counters and effects tell of a closure, it has returned. -/
structure Returned (dbg : Bool) (s : Sys T K V E) : Prop where
  running
    : ∀ t id op outcome, s.current t = some (id, op) → (s.pc t).outcome? = some outcome →
        s.ClosureReturned dbg id outcome
  effects
    : ∀ effect ∈ Library.effects s.history, ∀ outcome, effect.res.outcome? = some outcome →
        s.ClosureReturned dbg effect.id outcome

omit [Fintype T] in
/-- Who tells an outcome has just been told it by the closure, or did so before. -/
theorem Moves.told (moves : s.Moves dbg t s') (current : s'.current t = some (id, op))
    (told : (s'.pc t).outcome? = some outcome)
    : s.current t = some (id, op)
      ∧ ((∃ idx version, s.pc t = .closure idx version) ∨ (s.pc t).outcome? = some outcome) := by
  have before
    : (∃ idx version, s.pc t = .closure idx version) ∨ (s.pc t).outcome? = some outcome := by
    by_contra neither
    rw [not_or] at neither
    rcases moves.leads.outcome_eq fun idx version about => neither.1 ⟨idx, version, about⟩ with
      same | unwinding | rests
    · exact neither.2 (same.symm.trans told)
    · rw [unwinding] at told
      cases told
    · cases (Pc.outcome_of_rests rests).symm.trans told
  refine ⟨?_, before⟩
  rcases moves.calling with ⟨_, same | ⟨_, ended⟩⟩ | ⟨_, op', calls, _⟩
  · exact same.symm.trans current
  · cases ended.symm.trans current
  · rcases before with ⟨idx, version, about⟩ | tells
    · rw [about] at calls
      rcases calls with ⟨idle, _⟩ | ⟨_, iterating, _⟩
      · cases idle
      · cases iterating
    · cases (Pc.outcome_of_calls calls).symm.trans tells

/-- A closure tells its outcome to its call, by cases on the outcome. -/
theorem outcome_of_closure {idx version : Nat} {choice : Choice K V E}
    (about : s.pc t = .closure idx version) (found : step dbg s t choice = some s')
    : (s'.pc t).outcome? = some choice ∨ s'.pc t = .unwinding := by
  simp only [step, about] at found
  cases choice with
  | closureOk value =>
      cases found
      left
      simp [Pc.outcome?]
  | closureErr err =>
      cases found
      left
      simp [AfterPush.outcome?]
  | panic =>
      cases found
      exact Or.inr (pc_unwind_self s t)
  | _ => cases found

/-- A step tells only what was returned, by cases on who tells it. -/
theorem Returned.next (returned : s.Returned dbg) (reachable : Reachable dbg s)
    (next : Next dbg s s')
    : s'.Returned dbg := by
  obtain ⟨t, choice, within, found⟩ := id next
  have moves := step_moves found
  have running (u : T) (id : Nat) (op : Op K) (outcome : Choice K V E)
      (current : s'.current u = some (id, op)) (told : (s'.pc u).outcome? = some outcome) :
      s'.ClosureReturned dbg id outcome := by
    by_cases self : u = t
    · subst u
      obtain ⟨current', ⟨idx, version, about⟩ | told'⟩ := moves.told current told
      · rcases outcome_of_closure about found with returns | unwinding
        · cases returns.symm.trans told
          exact ⟨t, op, idx, version, s, s', reachable, current', about, within, found, .refl⟩
        · rw [unwinding] at told
          cases told
      · exact (returned.running t id op outcome current' told').next next
    · rw [moves.current_of_ne self] at current
      rw [moves.others u self] at told
      exact (returned.running u id op outcome current told).next next
  refine ⟨running, fun effect member outcome told => ?_⟩
  obtain ⟨free, inv⟩ := reachable.inv
  rcases inv.takes (tracked_of_run reachable.run) moves with
    silent | ⟨id, op, res, current, effects, takes⟩
  · rw [silent.effects] at member
    exact (returned.effects effect member outcome told).next next
  · rw [effects] at member
    rcases List.mem_append.mp member with before | now
    · exact (returned.effects effect before outcome told).next next
    · cases List.mem_singleton.mp now
      exact running t id op outcome current
        ((Pc.outcome_of_answered (answered_of_takes takes)).trans told)

theorem Returned.withKey : (Sys.withKey T K V E).Returned dbg where
  running := nofun
  effects := nofun

/-- In every reachable state only what was returned is told, by induction on the run. -/
theorem Reachable.returned (reachable : Reachable dbg s) : s.Returned dbg := by
  induction reachable with
  | refl => exact .withKey
  | tail earlier last ih => exact ih.next earlier last

-----------------------------------------------------------------------------------------
-- What was returned is told
-----------------------------------------------------------------------------------------

/-- A call tells this of its closure until it ends, if it does not panic, and so does its effect. -/
structure Tells (s : Sys T K V E) (id : Nat) (outcome : Choice K V E) : Prop where
  numbered : id < s.calls
  running
    : ∀ t op, s.current t = some (id, op) →
        (s.pc t).outcome? = some outcome ∨ s.pc t = .unwinding
  effects
    : ∀ op res, ⟨id, op, res⟩ ∈ Library.effects s.history → res.outcome? = some outcome

/-- What a step adds to the effects is told by the activity that makes it. -/
theorem Moves.tells (moves : s.Moves dbg t s') (reachable : Reachable dbg s)
    (numbered : id < s.calls)
    (effects : ∀ op res, ⟨id, op, res⟩ ∈ Library.effects s.history → res.outcome? = some outcome)
    (running
      : ∀ u op, s'.current u = some (id, op) →
          (s'.pc u).outcome? = some outcome ∨ s'.pc u = .unwinding)
    : s'.Tells id outcome := by
  refine ⟨?_, running, fun op res member => ?_⟩
  · rcases moves.calling with ⟨same, _⟩ | ⟨more, _⟩
    · exact same ▸ numbered
    · exact more ▸ Nat.lt_succ_of_lt numbered
  · obtain ⟨free, inv⟩ := reachable.inv
    rcases inv.takes (tracked_of_run reachable.run) moves with
      silent | ⟨_, _, _, current, taken, takes⟩
    · exact effects op res (silent.effects ▸ member)
    · rw [taken] at member
      rcases List.mem_append.mp member with before | now
      · exact effects op res before
      · cases List.mem_singleton.mp now
        have took := answered_of_takes takes
        rcases running t op current with told | unwinding
        · exact (Pc.outcome_of_answered took).symm.trans told
        · rw [unwinding] at took
          cases took

/-- Once told, an outcome stays, by cases on where the step leads. -/
theorem Tells.next (tells : s.Tells id outcome) (reachable : Reachable dbg s)
    (next : Next dbg s s')
    : s'.Tells id outcome := by
  obtain ⟨t, choice, _, found⟩ := next
  have moves := step_moves found
  refine moves.tells reachable tells.numbered tells.effects fun u op current => ?_
  by_cases self : u = t
  · subst u
    have busy : ¬ (s'.pc t).Rests :=
      (((tracked_of_run reachable.run).moves moves).running t id op current).serves.not_rests
    have before : s.current t = some (id, op) := by
      rcases moves.calling with ⟨_, same | ⟨_, ended⟩⟩ | ⟨_, _, _, made⟩
      · exact same.symm.trans current
      · cases ended.symm.trans current
      · -- a call that begins has a new number
        cases made.symm.trans current
        exact absurd tells.numbered (Nat.lt_irrefl _)
    rcases tells.running t op before with told | unwinding
    · have elsewhere (idx version : Nat) : s.pc t ≠ .closure idx version := by
        intro about
        rw [about] at told
        cases told
      rcases moves.leads.outcome_eq elsewhere with same | unwinding | rests
      · exact Or.inl (same.trans told)
      · exact Or.inr unwinding
      · exact absurd rests busy
    · have idle : s'.pc t = .idle := by
        simp only [step, unwinding] at found
        cases Choice.eq_of_onGo found
        exact pc_goto_self _ t _
      exact absurd (Or.inl idle) busy
  · rw [moves.current_of_ne self] at current
    rw [moves.others u self]
    exact tells.running u op current

/-- A call whose closure returned tells its outcome, by induction on the run after that. -/
theorem ClosureReturned.tells (returned : s.ClosureReturned dbg id outcome)
    : s.Tells id outcome := by
  obtain ⟨t, op, idx, version, before, after, reachable, current, about, within, found, run⟩ :=
    returned
  have tracked := tracked_of_run reachable.run
  have moves := step_moves found
  have running := tracked.running t id op current
  have start : after.Tells id outcome := by
    refine moves.tells reachable (tracked.numbered id op running.called) ?_ fun u op' mine => ?_
    · -- the call has not taken effect before its closure returns
      intro op' res member
      refine absurd (Library.mem_effects.mp member) (running.pending ?_ ?_ op' res)
      · rw [about]
        rfl
      · intro unwinding
        cases about.symm.trans unwinding
    · have self : u = t := by
        by_contra other
        rw [moves.current_of_ne other] at mine
        exact other (tracked.distinct u t id op' op mine current)
      rw [self]
      exact outcome_of_closure about found
  have reached : Reachable dbg after := reachable.tail ⟨t, outcome, within, found⟩
  have both : Reachable dbg s ∧ s.Tells id outcome := by
    induction run with
    | refl => exact ⟨reached, start⟩
    | tail _ last ih => exact ⟨ih.1.tail last, ih.2.next ih.1 last⟩
  exact both.2

/-- The result of a call that took effect tells what its closure returned, and that only. -/
theorem Reachable.closureReturned_iff (reachable : Reachable dbg s)
    {effect : Library.Effect (Op K) (Res K V E)} (member : effect ∈ Library.effects s.history)
    (outcome : Choice K V E)
    : s.ClosureReturned dbg effect.id outcome ↔ effect.res.outcome? = some outcome :=
  ⟨fun returned => returned.tells.effects effect.op effect.res member,
    reachable.returned.effects effect member outcome⟩

end Sys

end AtomicSlotMap
