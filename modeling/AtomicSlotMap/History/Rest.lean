import AtomicSlotMap.History.Contents
import AtomicSlotMap.History.Counter

/-! Runs without panics: no slot is lost, every call that took effect returns its result or is
still running, and the counter is exact whenever no call is about to change it.
-/

namespace AtomicSlotMap

variable {T K V E : Type} [Key K]

/-- Whether an activity is leaving its call after a panic. -/
def Pc.unwinds : Pc K V E → Bool
  | .unwinding => true
  | _ => false

namespace Sys

section

variable [DecidableEq T] [Fintype T] {dbg : Bool} {s s' : Sys T K V E}

/-- A step within the limits of the words that is no panic. -/
def CalmNext (dbg : Bool) (s s' : Sys T K V E) : Prop :=
  ∃ t choice, s.Within t ∧ step dbg s t choice = some s' ∧ s'.pc t ≠ .unwinding

/-- The states reachable from the empty map without panics. -/
def Calm (dbg : Bool) (s : Sys T K V E) : Prop :=
  Relation.ReflTransGen (CalmNext dbg) (.withKey T K V E) s

theorem Calm.reachable (calm : Calm dbg s) : Reachable dbg s :=
  Relation.ReflTransGen.mono
    (fun _ _ ⟨t, choice, within, found, _⟩ => ⟨t, choice, within, found⟩) _ _ calm

/-- No activity unwinds, by induction on the run. -/
theorem Calm.awake (calm : Calm dbg s) (t : T) : s.pc t ≠ .unwinding := by
  induction calm with
  | refl => nofun
  | tail _ last ih =>
      obtain ⟨actor, choice, _, found, awake⟩ := last
      by_cases self : t = actor
      · exact self ▸ awake
      · rw [(step_moves found).others t self]
        exact ih

/-- The check that no activity unwinds. -/
def calm? (s : Sys T K V E) : Bool := decide (∀ t, (s.pc t).unwinds = false)

/-- A schedule that never meets an unwinding activity runs by steps that are no panics, by
induction on the run from its end.
-/
theorem awake_of_runIf {allowed : Sys T K V E → T → Bool} {schedule : List (T × Choice K V E)}
    (found : runIf (fun s t => allowed s t && s.calm?) dbg s schedule = some s')
    (calm : s'.calm? = true)
    : s.calm? = true
      ∧ Relation.ReflTransGen
          (fun before after =>
            ∃ t choice,
              allowed before t = true
              ∧ step dbg before t choice = some after
              ∧ after.pc t ≠ .unwinding)
          s s' := by
  have run := steps_of_runIf found
  clear found
  induction run using Relation.ReflTransGen.head_induction_on with
  | refl => exact ⟨calm, .refl⟩
  | head first _ ih =>
      obtain ⟨t, choice, checked, step⟩ := first
      rw [Bool.and_eq_true] at checked
      refine ⟨checked.2, .head ⟨t, choice, checked.1, step, fun unwinding => ?_⟩ ih.2⟩
      have awake := of_decide_eq_true ih.1 t
      rw [unwinding] at awake
      cases awake

theorem Calm.of_run {schedule : List (T × Choice K V E)}
    (found
      : runIf (fun s t => s.within? t && s.calm?) dbg (.withKey T K V E) schedule = some s)
    (calm : s.calm? = true)
    : Calm dbg s :=
  Relation.ReflTransGen.mono
    (fun _ _ ⟨t, choice, within, step, awake⟩ =>
      ⟨t, choice, within_of_within? within, step, awake⟩)
    _ _ (awake_of_runIf found calm).2

/-- No slot is lost, by induction on the run. -/
theorem Calm.nothingLost (calm : Calm dbg s) : s.NothingLost := by
  induction calm with
  | refl => nofun
  | tail _ last ih =>
      obtain ⟨t, choice, _, found, awake⟩ := last
      obtain ⟨events, trace, caused⟩ := (step_moves found).causes
      intro actor idx leaked
      rw [trace] at leaked
      rcases List.mem_append.mp leaked with now | before
      · exact awake (caused _ now).2
      · exact ih actor idx before

end

end Sys

/-- Results that tell of an insertion or a removal belong to these operations. -/
def Op.Yields (op : Op K) : Res K V E → Prop
  | .inserted _ _ => op = .tryInsertWithKey
  | .removed _ => ∃ key, op = .remove key
  | _ => True

section

variable [DecidableEq T] {dbg : Bool} {s s' : Sys T K V E} {t : T} {pc pc' : Pc K V E}
  {op : Op K} {res : Res K V E}

omit [DecidableEq T] in
theorem Pc.Answers.yields (answers : pc.Answers dbg s res pc') (serves : pc.Serves op)
    : op.Yields res := by
  cases answers with
  | removeBeyond key | removeStale key | removeAgainStale key => exact ⟨key, serves⟩
  | _ => trivial

/-- A call yields results of its own kind, by cases on how it takes effect. -/
theorem Sys.Takes.yields (takes : s.Takes dbg t op res s') : op.Yields res := by
  cases takes with
  | answered op res pc answers serves => exact answers.yields serves
  | inserted => rfl
  | removed key => exact ⟨key, rfl⟩
  | acquired op key getter => cases getter <;> trivial
  | _ => trivial

end

namespace Sys

variable [DecidableEq T] [Fintype T] {dbg : Bool} {s s' : Sys T K V E} {t : T}

/-- Every effect of a run is of the kind of its operation, by induction on the run. -/
theorem Reachable.yields (reachable : Reachable dbg s)
    : ∀ effect ∈ Library.effects s.history, effect.op.Yields effect.res := by
  induction reachable with
  | refl => nofun
  | tail earlier last ih =>
      obtain ⟨t, choice, _, found⟩ := last
      obtain ⟨free, inv⟩ := Reachable.inv earlier
      rcases inv.takes (tracked_of_run (Reachable.run earlier)) (step_moves found) with
        silent | ⟨id, op, res, _, effects, takes⟩
      · rw [silent.effects]
        exact ih
      · rw [effects]
        intro effect member
        rcases List.mem_append.mp member with before | now
        · exact ih effect before
        · cases List.mem_singleton.mp now
          exact takes.yields

-----------------------------------------------------------------------------------------
-- Calls that have not returned
-----------------------------------------------------------------------------------------

/-- Every call has returned or is being executed. -/
def Attended (s : Sys T K V E) : Prop :=
  ∀ id op, .call id op ∈ s.history →
    (∃ res, .ret id res ∈ s.history) ∨ ∃ t, s.current t = some (id, op)

omit [Key K] [DecidableEq T] [Fintype T] in
theorem Attended.congr (attended : s.Attended) (history : s'.history = s.history)
    (current : s'.current = s.current)
    : s'.Attended := by
  rw [Attended, history, current]
  exact attended

omit [Key K] [DecidableEq T] [Fintype T] in
/-- Taking effect neither starts nor ends a call. -/
theorem Attended.answer (attended : s.Attended) (res : Res K V E) : (s.answer t res).Attended := by
  rw [Sys.answer]
  split
  · intro id op called
    rcases List.mem_append.mp called with before | now
    · rcases attended id op before with ⟨res, returned⟩ | running
      · exact Or.inl ⟨res, List.mem_append_left _ returned⟩
      · exact Or.inr running
    · cases List.mem_singleton.mp now
  · exact attended

omit [Key K] [Fintype T] in
/-- A call that starts at rest is being executed. -/
theorem Attended.begin (attended : s.Attended) (resting : s.current t = none) (op : Op K)
    : (s.begin t op).Attended := by
  intro id op' called
  rcases List.mem_append.mp called with before | now
  · rcases attended id op' before with ⟨res, returned⟩ | ⟨u, running⟩
    · exact Or.inl ⟨res, List.mem_append_left _ returned⟩
    · refine Or.inr ⟨u, ?_⟩
      have apart : u ≠ t := by
        rintro rfl
        cases resting.symm.trans running
      exact (Function.update_of_ne apart _ _).trans running
  · cases List.mem_singleton.mp now
    exact Or.inr ⟨t, Function.update_self ..⟩

omit [Key K] [Fintype T] in
/-- A call that ends here has returned. -/
theorem Attended.finish (attended : s.Attended) (res : Res K V E)
    : (s.finish t (.ret · res)).Attended := by
  rw [Sys.finish]
  split
  · next ended op' current =>
    intro id op called
    rcases List.mem_append.mp called with before | now
    · rcases attended id op before with ⟨res, returned⟩ | ⟨u, running⟩
      · exact Or.inl ⟨res, List.mem_append_left _ returned⟩
      · by_cases self : u = t
        · subst u
          cases current.symm.trans running
          exact Or.inl ⟨res, List.mem_append_right _ List.mem_cons_self⟩
        · refine Or.inr ⟨u, ?_⟩
          simp only [Function.update_of_ne self]
          exact running
    · cases List.mem_singleton.mp now
  · exact attended

omit [Key K] [Fintype T] in
/-- A panic does not end a call yet. -/
theorem Attended.unwind (attended : s.Attended) : (s.unwind t).Attended :=
  attended.congr (history_unwind s t) (current_unwind s t)

omit [Key K] [Fintype T] in
/-- A step that answers, whatever else it does. -/
theorem Attended.answering {staged : Sys T K V E} (attended : s.Attended)
    (history : staged.history = s.history) (current : staged.current = s.current)
    (res : Res K V E) (pc : Pc K V E)
    : ((staged.answer t res).goto t pc).Attended :=
  ((attended.congr history current).answer res).congr rfl rfl

omit [Key K] [Fintype T] in
/-- A step that makes a call and answers it. -/
theorem Attended.beginning {staged : Sys T K V E} (attended : s.Attended)
    (resting : s.current t = none) (history : staged.history = s.history)
    (current : staged.current = s.current) (op : Op K) (res : Res K V E) (pc : Pc K V E)
    : (((staged.begin t op).answer t res).goto t pc).Attended :=
  (((attended.congr history current).begin (current ▸ resting) op).answer res).congr rfl rfl

omit [Fintype T] in
/-- Every step but the end of a panic keeps the calls attended, by cases on the move. -/
theorem Attended.moves (attended : s.Attended) (tracked : s.Tracked) (moves : s.Moves dbg t s')
    (awake : s.pc t ≠ .unwinding)
    : s'.Attended := by
  have resting {op : Op K} (calls : (s.pc t).Calls op) : s.current t = none :=
    tracked.current_eq_none calls.rests
  cases moves with
  | stay => exact attended
  | go | popped | pushed | wrote | armed | allocated | installed | deallocated | linked
  | recycled | dropped | acquired | counted | discounted => exact attended.congr rfl rfl
  | answered | published => exact attended.answering (by rfl) (by rfl) _ _
  | failed => exact attended.unwind
  | dropPanicked => exact (attended.congr rfl rfl : (s.dropInnerValue t _).Attended).unwind
  | retired key current about same =>
      simp only [removeExchange, if_pos same]
      exact attended.answering (by rfl) (by rfl) _ _
  | decremented =>
      rw [decRefCount]
      split <;> exact attended.congr rfl rfl
  | guarded key getter about same =>
      simp only [acquireCheck, if_pos same]
      exact attended.answering (by rfl) (by rfl) _ _
  | cloned guard about =>
      rw [cloneGuard]
      generalize wrappingAdd (s.slots (KeyData.idx guard.key)).refCount 1 = count
      dsimp only
      split
      · exact attended.answering (by rfl) (by rfl) _ _
      · exact (attended.congr rfl rfl : (s.setSlot _ _).Attended).unwind
  | began op pc calls =>
      exact (attended.begin (resting calls) op).congr rfl rfl
  | beganReserve additional calls => exact attended.beginning (resting calls) rfl rfl _ _ _
  | beganDeref id guard calls | beganDrop id guard calls | beganForget id guard calls =>
      exact attended.beginning (resting calls) (by rfl) (by rfl) _ _ _
  | returned res => exact (attended.finish res).congr rfl rfl
  | unwound about => exact absurd about awake

/-- In a run without panics every call has returned or is being executed, by induction on the
run.
-/
theorem Calm.attended (calm : Calm dbg s) : s.Attended := by
  induction calm with
  | refl => nofun
  | tail earlier last ih =>
      obtain ⟨t, choice, _, found, _⟩ := last
      exact ih.moves (tracked_of_run (Reachable.run (Calm.reachable earlier)))
        (step_moves found) (Calm.awake earlier t)

/-- In a run without panics the effect of a call that is not being executed has been returned. -/
theorem Calm.returned (calm : Calm dbg s) {effect : Library.Effect (Op K) (Res K V E)}
    (took : effect ∈ Library.effects s.history)
    (ended : ∀ t, s.current t ≠ some (effect.id, effect.op))
    : .ret effect.id effect.res ∈ s.history := by
  have recorded := (tracked_of_run calm.reachable.run).recorded
  have lin := Library.mem_effects.mp took
  rcases calm.attended _ _ (recorded.called_of_lin lin) with ⟨res, returned⟩ | ⟨t, running⟩
  · obtain ⟨op, answered⟩ := recorded.lin_of_ret returned
    obtain ⟨_, same⟩ := recorded.lin_unique lin answered
    exact same ▸ returned
  · exact absurd running (ended t)

end Sys

end AtomicSlotMap
