import AtomicSlotMap.Correctness.LockFreedom
import AtomicSlotMap.Correctness.MemorySafety
import AtomicSlotMap.Library.Fairness

/-! What is certain to end if every activity within a call goes on taking turns: each wait for a
chunk, and the calls that retry nothing. What the others do costs such a call no access.
-/

namespace AtomicSlotMap

open Library

variable {T K V E : Type} [Key K]

/-- How many accesses an activity inside `push_zeroed` makes until it has seen to its chunk. -/
def Pc.untilInstalled : Pc K V E → Nat
  | .ensureLoad _ _ => 3
  | .ensureAlloc _ _ => 2
  | .ensureCas _ _ _ => 1
  | _ => 0

/-- The operations that retry nothing. -/
def Op.waitFree : Op K → Bool
  | .containsKey _ | .lossyLen | .lossyIsEmpty | .capacity | .reserve _ => true
  | _ => false

/-- Where their calls stand. -/
def Pc.waitFree : Pc K V E → Bool
  | .waitForChunk _ next => next.waitFree
  | .containsLen _ | .containsVersion _ | .lenLoad | .isEmptyLoad | .capacityLoad _ _
  | .reserveLen _ | .reserveSlots _ | .vecReserve _ | .ensureLoad _ (.reserving _ _)
  | .ensureAlloc _ (.reserving _ _) | .ensureCas _ _ (.reserving _ _)
  | .ensureDealloc _ (.reserving _ _) | .ret _ | .unwinding => true
  | _ => false

namespace Sys

variable [DecidableEq T] [Fintype T] {dbg : Bool} {s s' : Sys T K V E} {t : T}
  {choice : Choice K V E}

/-- Whoever is inside `push_zeroed` comes nearer to seeing to its chunk with every turn. -/
theorem pushing_turn (claimed : s.Claimed) (grants : s.Grants t choice) {idx : Nat}
    (pushing : (s.pc t).Pushing idx) (found : step dbg s t choice = some s')
    : s'.present idx
      ∨ ((s'.pc t).Pushing idx ∧ (s'.pc t).untilInstalled < (s.pc t).untilInstalled) := by
  have ensures := claimed.ensures t
  cases about : s.pc t with
  | ensureLoad chunk after =>
      rw [about] at pushing
      obtain ⟨rfl, rfl⟩ := pushing
      simp only [step, about] at found
      have reached := Choice.eq_of_onGo found
      split at reached
      · next present => exact Or.inl (reached ▸ present)
      · rw [reached, pc_goto_self]
        exact Or.inr ⟨⟨rfl, rfl⟩, Nat.lt_succ_self _⟩
  | ensureAlloc chunk after =>
      rw [about] at pushing
      obtain ⟨rfl, rfl⟩ := pushing
      simp only [step, about] at found
      cases choice with
      | go =>
          rw [← Option.some.inj found, pc_goto_self]
          exact Or.inr ⟨⟨rfl, rfl⟩, Nat.lt_succ_self _⟩
      | allocNull => cases grants.1
      | layoutOverflow =>
          have claims := grants.2 rfl
          rw [about] at claims
          cases claims
      | _ => cases found
  | ensureCas chunk new after =>
      rw [about] at pushing ensures
      obtain ⟨rfl, rfl⟩ := pushing
      simp only [step, about, installChunk] at found
      have reached := Choice.eq_of_onGo found
      left
      split at reached
      · rw [reached]
        simp only [present, goto, emit, setChunk, Function.update_self]
        exact ensures.1
      · next there =>
        rw [reached]
        exact Option.isSome_iff_ne_none.mpr there
  | _ =>
      rw [about] at pushing
      exact pushing.elim

variable {states : Nat → Sys T K V E} {labels : Nat → T × Choice K V E}

/-- A run without end in which allocations are granted and no activity stops within a call. -/
structure FairRun (dbg : Bool) (states : Nat → Sys T K V E) (labels : Nat → T × Choice K V E)
    : Prop where
  start : states 0 = .withKey T K V E
  steps : ∀ i, step dbg (states i) (labels i).1 (labels i).2 = some (states (i + 1))
  granted : ∀ i, (states i).Grants (labels i).1 (labels i).2
  fair : ∀ i t, ((states i).pc t).paused = false → ∃ j ≥ i, (labels j).1 = t

theorem FairRun.follows (run : FairRun dbg states labels) (length : Nat)
    : Follows (next dbg) states labels length :=
  fun i _ => run.steps i

theorem FairRun.reached (run : FairRun dbg states labels) (i : Nat)
    : Relation.ReflTransGen (GrantedStep dbg) (.withKey T K V E) (states i) :=
  granted_of_follows run.start run.follows run.granted i

theorem FairRun.claimed (run : FairRun dbg states labels) (i : Nat) : (states i).Claimed :=
  (Claimed.withKey.of_granted .withKey (run.reached i)).1

/-- An activity within a call comes to a turn, and stands still until then. -/
theorem FairRun.turn (run : FairRun dbg states labels) {i : Nat}
    (running : ((states i).pc t).paused = false)
    : ∃ j ≥ i, (labels j).1 = t ∧ (states j).pc t = (states i).pc t := by
  obtain ⟨j, later, own⟩ := run.fair i t running
  exact exists_turn run.follows later own

/-- What an activity stands at is left to it. -/
theorem FairRun.others (run : FairRun dbg states labels) {i : Nat} (other : t ≠ (labels i).1)
    : (states (i + 1)).pc t = (states i).pc t :=
  (step_moves (run.steps i)).others t other

omit [Key K] [DecidableEq T] [Fintype T] in
theorem Pc.Pushing.running {pc : Pc K V E} {idx : Nat} (pushing : pc.Pushing idx)
    : pc.paused = false := by
  cases pc with
  | ensureLoad | ensureAlloc | ensureCas => rfl
  | _ => exact pushing.elim

/-- The chunk that an activity has claimed an index of is installed. -/
theorem FairRun.installs (run : FairRun dbg states labels) {i idx : Nat} {u : T}
    (pushing : ((states i).pc u).Pushing idx)
    : ∃ j ≥ i, (states j).present idx := by
  have own {k : Nat} (turn : (labels k).1 = u) (pushing : ((states k).pc u).Pushing idx) :
      (states (k + 1)).present idx
      ∨ (((states (k + 1)).pc u).Pushing idx
        ∧ ((states (k + 1)).pc u).untilInstalled < ((states k).pc u).untilInstalled) := by
    subst turn
    exact pushing_turn (run.claimed k) (run.granted k) pushing (run.steps k)
  have keeps (k : Nat) (pushing : ((states k).pc u).Pushing idx)
      (missing : ¬ (states (k + 1)).present idx) :
      ((states (k + 1)).pc u).Pushing idx
      ∧ ((states (k + 1)).pc u).untilInstalled ≤ ((states k).pc u).untilInstalled := by
    by_cases turn : (labels k).1 = u
    · exact ((own turn pushing).resolve_left missing).imp_right Nat.le_of_lt
    · rw [run.others (Ne.symm turn)]
      exact ⟨pushing, Nat.le_refl _⟩
  obtain ⟨j, later, present, _⟩ := reaches_of_rank (fun k => ((states k).pc u).Pushing idx)
    (fun k => (states (k + 1)).present idx) (fun k => ((states k).pc u).untilInstalled) keeps
    (fun k pushing => by
      obtain ⟨j, later, turn, _⟩ := run.turn (Pc.Pushing.running pushing)
      exact ⟨j, later, fun pushing missing => ((own turn pushing).resolve_left missing).2⟩)
    pushing
  exact ⟨j + 1, Nat.le_succ_of_le later, present⟩

/-- A chunk that is there remains there, by induction on the steps. -/
theorem FairRun.present (run : FairRun dbg states labels) {i j idx : Nat} (later : i ≤ j)
    (present : (states i).present idx)
    : (states j).present idx := by
  induction later with
  | refl => exact present
  | step _ ih => exact (step_moves (run.steps _)).present ih

-----------------------------------------------------------------------------------------
-- Runs that go on forever
-----------------------------------------------------------------------------------------

/-- The states that labels lead to, where each step can be taken. -/
def along (dbg : Bool) (s : Sys T K V E) (labels : Nat → T × Choice K V E) : Nat → Sys T K V E
  | 0 => s
  | i + 1 => (next dbg (along dbg s labels i) (labels i)).getD (along dbg s labels i)

/-- A schedule, after which an activity at rest starts iterations and gives them up. -/
def prolonged (t : T) (schedule : List (T × Choice K V E)) (i : Nat) : T × Choice K V E :=
  schedule.getD i (t, if (i - schedule.length) % 2 = 0 then .iterate else .endIterate)

/-- What follows the first step, by induction on the number of steps. -/
theorem along_succ {labels : Nat → T × Choice K V E} (first : next dbg s (labels 0) = some s')
    (i : Nat)
    : along dbg s labels (i + 1) = along dbg s' (labels ∘ Nat.succ) i := by
  induction i with
  | zero => simp only [along, first, Option.getD_some]
  | succ i ih =>
      rw [along, ih]
      rfl

/-- The labels of a schedule lead where it runs to, by induction on the schedule. -/
theorem along_of_runIf {allowed : Sys T K V E → T → Bool} {schedule : List (T × Choice K V E)}
    (labels : Nat → T × Choice K V E)
    (found : runIf allowed dbg s schedule = some s')
    (agree : ∀ i (less : i < schedule.length), labels i = schedule[i])
    : along dbg s labels schedule.length = s'
      ∧ ∀ i < schedule.length,
          next dbg (along dbg s labels i) (labels i) = some (along dbg s labels (i + 1)) := by
  induction schedule generalizing s labels with
  | nil =>
      cases found
      exact ⟨rfl, fun i less => absurd less (Nat.not_lt_zero i)⟩
  | cons head schedule ih =>
      simp only [runIf, Option.ite_none_right_eq_some] at found
      obtain ⟨_, found⟩ := found
      obtain ⟨middle, first, rest⟩ := Option.bind_eq_some_iff.mp found
      have start : next dbg s (labels 0) = some middle := by
        rw [agree 0 (Nat.succ_pos _)]
        exact first
      obtain ⟨reached, steps⟩ := ih (labels ∘ Nat.succ) rest fun i less =>
        agree (i + 1) (Nat.succ_lt_succ less)
      refine ⟨(along_succ start _).trans reached, fun i less => ?_⟩
      cases i with
      | zero =>
          rw [along_succ start]
          exact start
      | succ i =>
          rw [along_succ start, along_succ start]
          exact steps i (Nat.lt_of_succ_lt_succ less)

/-- Where an activity stands that starts iterations and gives them up. -/
def toggled (more : Nat) : Pc K V E := if more % 2 = 0 then .idle else .iterating 0

/-- A schedule can be prolonged, and the others are left as they are; by induction on the steps. -/
theorem along_prolonged {schedule : List (T × Choice K V E)} {start : Sys T K V E}
    (reached : along dbg start (prolonged t schedule) schedule.length = s) (idle : s.pc t = .idle)
    (more : Nat)
    : (along dbg start (prolonged t schedule) (schedule.length + more)).pc
        = Function.update s.pc t (toggled more)
      ∧ next dbg (along dbg start (prolonged t schedule) (schedule.length + more))
          (prolonged t schedule (schedule.length + more))
        = some (along dbg start (prolonged t schedule) (schedule.length + (more + 1))) := by
  have turn {more : Nat} {now : Sys T K V E}
      (stands : now.pc = Function.update s.pc t (toggled more)) :
      ∃ after,
        next dbg now (prolonged t schedule (schedule.length + more)) = some after
        ∧ after.pc = Function.update s.pc t (toggled (more + 1)) := by
    have mine : now.pc t = toggled more := by rw [stands, Function.update_self]
    rw [prolonged, List.getD_eq_default _ _ (Nat.le_add_right _ _), Nat.add_sub_cancel_left]
    refine ⟨now.goto t (toggled (more + 1)), ?_, ?_⟩
    · rcases Nat.mod_two_eq_zero_or_one more with even | odd
      · rw [toggled, if_pos even] at mine
        rw [toggled, if_pos even, if_neg (by omega)]
        simp only [next, step, mine]
      · rw [toggled, if_neg (by omega)] at mine
        rw [toggled, if_neg (by omega), if_pos (by omega)]
        simp only [next, step, mine]
    · simp only [goto, stands, Function.update_idem]
  have follow {more : Nat}
      (stands
        : (along dbg start (prolonged t schedule) (schedule.length + more)).pc
          = Function.update s.pc t (toggled more)) :
      next dbg (along dbg start (prolonged t schedule) (schedule.length + more))
          (prolonged t schedule (schedule.length + more))
        = some (along dbg start (prolonged t schedule) (schedule.length + (more + 1)))
      ∧ (along dbg start (prolonged t schedule) (schedule.length + (more + 1))).pc
        = Function.update s.pc t (toggled (more + 1)) := by
    obtain ⟨after, found, stands'⟩ := turn stands
    rw [← Nat.add_assoc, along, found]
    exact ⟨rfl, stands'⟩
  induction more with
  | zero =>
      have stands : (along dbg start (prolonged t schedule) (schedule.length + 0)).pc
          = Function.update s.pc t (toggled 0) := by
        rw [Nat.add_zero, reached, toggled, if_pos (Nat.zero_mod 2), ← idle,
          Function.update_eq_self]
      exact ⟨stands, (follow stands).1⟩
  | succ more ih =>
      have stands := (follow ih.1).2
      exact ⟨stands, (follow stands).1⟩

/-- A run at whose end nobody is within a call is the beginning of one that goes on forever. -/
theorem FairRun.of_runIf {allowed : Sys T K V E → T → Bool} {schedule : List (T × Choice K V E)}
    (found : runIf allowed dbg (.withKey T K V E) schedule = some s')
    (supplies : schedule.all (·.2.supplies) = true) (idle : s'.pc t = .idle)
    (paused : ∀ u, (s'.pc u).paused = true)
    : FairRun dbg (along dbg (.withKey T K V E) (prolonged t schedule))
        (prolonged t schedule) := by
  obtain ⟨reached, steps⟩ := along_of_runIf (prolonged t schedule) found fun i less => by
    rw [prolonged, List.getD_eq_getElem _ _ less]
  have beyond (more : Nat) := along_prolonged reached idle more
  have every (i : Nat) : next dbg (along dbg (.withKey T K V E) (prolonged t schedule) i)
        (prolonged t schedule i)
      = some (along dbg (.withKey T K V E) (prolonged t schedule) (i + 1)) := by
    by_cases less : i < schedule.length
    · exact steps i less
    · obtain ⟨more, rfl⟩ := Nat.exists_eq_add_of_le (Nat.le_of_not_lt less)
      exact (beyond more).2
  have resting (more : Nat) (u : T) :
      ((along dbg (.withKey T K V E) (prolonged t schedule) (schedule.length + more)).pc u).paused
        = true := by
    rw [(beyond more).1]
    by_cases self : u = t
    · rw [self, Function.update_self, toggled]
      split <;> rfl
    · rw [Function.update_of_ne self]
      exact paused u
  refine ⟨rfl, every, fun i => grants_of_supplies _ _ ?_, fun i u running => ?_⟩
  · rw [prolonged, List.getD_eq_getElem?_getD]
    cases listed : schedule[i]? with
    | none =>
        rw [Option.getD_none]
        split <;> rfl
    | some label => exact List.all_eq_true.mp supplies label (List.mem_of_getElem? listed)
  · by_contra never
    -- without a turn it would still be within its call at the end of the schedule
    have still (distance : Nat) :
        (along dbg (.withKey T K V E) (prolonged t schedule) (i + distance)).pc u
          = (along dbg (.withKey T K V E) (prolonged t schedule) i).pc u := by
      induction distance with
      | zero => rfl
      | succ distance ih =>
          have other : u ≠ (prolonged t schedule (i + distance)).1 := fun own =>
            never ⟨i + distance, Nat.le_add_right _ _, own.symm⟩
          exact ((step_moves (every (i + distance))).others u other).trans ih
    have ended := resting i u
    rw [Nat.add_comm, still, running] at ended
    cases ended

/-- Who waits for a chunk arrives at some turn: whoever pushes it is not stopped, and the chunk stays.
-/
theorem FairRun.arrives {states : Nat → Sys T K V E} {labels : Nat → T × Choice K V E}
    (run : FairRun dbg states labels) {i idx : Nat} {next : Pc K V E}
    (waiting : (states i).pc t = .waitForChunk idx next)
    : ∃ j ≥ i,
        (labels j).1 = t
        ∧ (states j).pc t = .waitForChunk idx next
        ∧ (states (j + 1)).pc t = next := by
  have installed {k : Nat} (waiting : (states k).pc t = .waitForChunk idx next) :
      ∃ m ≥ k, (states m).present idx := by
    by_cases present : (states k).present idx
    · exact ⟨k, Nat.le_refl k, present⟩
    · have reaching := reaching_of_run (run.reached k)
      obtain ⟨_, _, u, pushing⟩ := reaching.waits (run.claimed k) waiting present
      exact run.installs pushing
  have keeps (k : Nat) (waiting : (states k).pc t = .waitForChunk idx next)
      (goal : ¬ ((labels k).1 = t ∧ (states k).present idx)) :
      (states (k + 1)).pc t = .waitForChunk idx next ∧ 0 ≤ 0 := by
    refine ⟨?_, Nat.le_refl 0⟩
    by_cases turn : (labels k).1 = t
    · subst turn
      rcases step_wait waiting (run.steps k) with ⟨present, _⟩ | ⟨_, same⟩
      · exact absurd ⟨rfl, present⟩ goal
      · rw [same]
        exact waiting
    · rw [run.others (Ne.symm turn)]
      exact waiting
  obtain ⟨j, later, ⟨turn, present⟩, waiting'⟩ :=
    reaches_of_rank (fun k => (states k).pc t = .waitForChunk idx next)
      (fun k => (labels k).1 = t ∧ (states k).present idx) (fun _ => 0) keeps
      (fun k waiting => by
        obtain ⟨m, later, present⟩ := installed waiting
        by_cases still : (states m).pc t = .waitForChunk idx next
        · obtain ⟨j, after, turn, _⟩ := run.turn (i := m) (t := t) (still ▸ rfl)
          exact ⟨j, Nat.le_trans later after, fun _ goal =>
            absurd ⟨turn, run.present after present⟩ goal⟩
        · exact ⟨m, later, fun waiting => absurd waiting still⟩)
      waiting
  refine ⟨j, later, turn, waiting', ?_⟩
  subst turn
  rcases step_wait waiting' (run.steps j) with ⟨_, reached⟩ | ⟨missing, _⟩
  · rw [reached, pc_goto_self]
  · exact absurd present missing

end Sys

open Sys in
/-- In a run without end in which allocations are granted and no activity stops within a call, every
wait for a chunk is over at some turn.
-/
theorem waits_end [DecidableEq T] [Fintype T] {dbg : Bool} {states : Nat → Sys T K V E}
    {labels : Nat → T × Choice K V E} (run : FairRun dbg states labels) {i idx : Nat} {t : T}
    {next : Pc K V E} (waiting : (states i).pc t = .waitForChunk idx next)
    : ∃ j ≥ i,
        (labels j).1 = t
        ∧ (states j).pc t = .waitForChunk idx next
        ∧ (states (j + 1)).pc t = next :=
  run.arrives waiting

/-- One activity looks up the index that another one has claimed, and waits until its chunk is there. -/
def lookUpWhileAllocating : List (Bool × Choice UInt64 Nat Empty) :=
  Sys.turns false [.call .tryInsertWithKey, .go, .go]
  ++ Sys.turns true [.call (.containsKey ((1 : UInt64) <<< 32)), .go, .go]
  ++ Sys.turns false [.go, .go, .go]
  ++ Sys.turns true [.go, .go, .go]

/-- Nobody is within a call at the end, so the run can go on forever. -/
theorem fairRun_lookUpWhileAllocating
    : Sys.FairRun false
        (Sys.along false (.withKey Bool UInt64 Nat Empty)
          (Sys.prolonged true lookUpWhileAllocating))
        (Sys.prolonged true lookUpWhileAllocating) := by
  have found
    : (Sys.run false (.withKey Bool UInt64 Nat Empty) lookUpWhileAllocating).map
        (fun s => (s.pc false, s.pc true))
      = some (.closure 0 1, .idle) := by
    rfl
  obtain ⟨s, reached, after⟩ := Option.map_eq_some_iff.mp found
  simp only [Prod.mk.injEq] at after
  obtain ⟨offered, idle⟩ := after
  refine .of_runIf reached (by decide +kernel) idle fun u => ?_
  cases u with
  | false => rw [offered, Pc.paused]
  | true => rw [idle, Pc.paused]

open Sys in
/-- It waits after five steps, and arrives. -/
theorem waits_end_lookUpWhileAllocating
    : ∃ j ≥ 5,
        (along false (.withKey Bool UInt64 Nat Empty)
          (prolonged true lookUpWhileAllocating) (j + 1)).pc true
        = .containsVersion ((1 : UInt64) <<< 32) := by
  have waiting
    : (along false (.withKey Bool UInt64 Nat Empty)
        (prolonged true lookUpWhileAllocating) 5).pc true
      = .waitForChunk 0 (.containsVersion ((1 : UInt64) <<< 32)) := by
    rfl
  obtain ⟨j, later, _, _, arrived⟩ := waits_end fairRun_lookUpWhileAllocating waiting
  exact ⟨j, later, arrived⟩

-----------------------------------------------------------------------------------------
-- Calls that retry nothing
-----------------------------------------------------------------------------------------

section

variable {s s' : Sys T K V E} {pc : Pc K V E}

/-- A call that retries nothing has loaded no word that it will exchange, by induction on the waits. -/
theorem Pc.stale_of_waitFree (free : pc.waitFree = true) : pc.stale s = false := by
  induction pc with
  | waitForChunk _ next ih => exact ih free
  | popNext | popCas | pushStore | pushCas | acquireCas | assertRefCount | assertVersion =>
      cases free
  | _ => rfl

/-- The length of the vector is nothing to it, by induction on the waits. -/
theorem Pc.cost_of_waitFree {rates : Rates} (len len' : Nat) (free : pc.waitFree = true)
    : pc.cost rates len = pc.cost rates len' := by
  induction pc with
  | waitForChunk _ next ih => exact congrArg (· + 1) (ih free)
  | containsLen | containsVersion | lenLoad | isEmptyLoad | capacityLoad | reserveLen
  | reserveSlots | vecReserve | ensureLoad | ensureAlloc | ensureCas | ensureDealloc | ret
  | unwinding => rfl
  | _ => cases free

omit [Key K] in
theorem Pc.running_of_waitFree (free : pc.waitFree = true) (staying : pc.leaving ≠ true)
    : pc.paused = false := by
  cases pc with
  | ret | unwinding => exact absurd rfl staying
  | idle | iterating | closure => cases free
  | _ => rfl

omit [Key K] in
theorem AfterEnsure.waitFree_resume {chunk maxChunk : Nat}
    : ((AfterEnsure.reserving chunk maxChunk).resume : Pc K V E).waitFree = true := by
  simp only [AfterEnsure.resume]
  split <;> rfl

namespace Sys

variable [DecidableEq T] [Fintype T] {dbg : Bool} {t : T} {choice : Choice K V E}

omit [DecidableEq T] [Fintype T] in
theorem bill_of_waitFree {rates : Rates} (about : s.pc t = pc) (free : pc.waitFree = true)
    : s.bill rates t = pc.cost rates 0 := by
  rw [bill, about, Pc.stale_of_waitFree free, Pc.cost_of_waitFree s.len 0 free]
  rfl

/-- A turn of such a call brings it forward and takes no fee, by cases on the program counter. -/
theorem waitFree_turn (free : (s.pc t).waitFree = true) (staying : (s.pc t).leaving ≠ true)
    (found : step dbg s t choice = some s')
    : (s'.pc t).waitFree = true
      ∧ s.fee ⟨0, 0⟩ (t, choice) = 0
      ∧ choice.isSpurious = false := by
  have going {staged : Sys T K V E} {pc : Pc K V E} (free : pc.waitFree = true)
      (reached : s' = staged.goto t pc) : (s'.pc t).waitFree = true :=
    pc_of_goto reached ▸ free
  have onGo {next : Sys T K V E} (found : choice.onGo next = some s')
      (free : s' = next → (s'.pc t).waitFree = true) :
      (s'.pc t).waitFree = true ∧ s.fee ⟨0, 0⟩ (t, choice) = 0 ∧ choice.isSpurious = false := by
    have same := Choice.go_of_onGo found
    subst same
    exact ⟨free (Choice.eq_of_onGo found), rfl, rfl⟩
  cases about : s.pc t with
  | waitForChunk idx next =>
      simp only [step, about] at found
      refine onGo found fun reached => ?_
      rw [about] at free
      split at reached
      · exact going (show next.waitFree = true from free) reached
      · rw [reached, about]
        exact free
  | containsLen | capacityLoad =>
      simp only [step, about] at found
      refine onGo found fun reached => ?_
      split at reached
      · exact going rfl reached
      · exact going rfl reached
  | containsVersion | lenLoad | isEmptyLoad | reserveSlots =>
      simp only [step, about] at found
      exact onGo found (going rfl)
  | reserveLen additional =>
      simp only [step, about] at found
      refine onGo found fun reached => ?_
      split at reached
      · exact pc_of_unwind reached ▸ rfl
      · exact going rfl reached
  | vecReserve additional =>
      simp only [step, about, Sys.vecReserve] at found
      refine onGo found fun reached => ?_
      split at reached
      · exact pc_of_unwind reached ▸ rfl
      · split at reached
        · exact going rfl reached
        · split at reached
          · exact pc_of_unwind reached ▸ rfl
          · exact going rfl reached
  | ensureLoad chunk after =>
      rw [about] at free
      cases after with
      | pushed => cases free
      | reserving current maxChunk =>
          simp only [step, about] at found
          refine onGo found (going ?_)
          split
          · exact AfterEnsure.waitFree_resume
          · rfl
  | ensureAlloc chunk after =>
      rw [about] at free
      cases after with
      | pushed => cases free
      | reserving current maxChunk =>
          simp only [step, about] at found
          cases choice with
          | go => exact ⟨going rfl (Option.some.inj found).symm, rfl, rfl⟩
          | allocNull => exact ⟨going rfl (Option.some.inj found).symm, rfl, rfl⟩
          | layoutOverflow => exact ⟨pc_of_unwind (Option.some.inj found).symm ▸ rfl, rfl, rfl⟩
          | _ => cases found
  | ensureCas chunk new after =>
      rw [about] at free
      cases after with
      | pushed => cases free
      | reserving current maxChunk =>
          simp only [step, about, installChunk] at found
          refine onGo found fun reached => ?_
          split at reached
          · exact going AfterEnsure.waitFree_resume reached
          · exact going rfl reached
  | ensureDealloc new after =>
      rw [about] at free
      cases after with
      | pushed => cases free
      | reserving current maxChunk =>
          simp only [step, about] at found
          exact onGo found (going AfterEnsure.waitFree_resume)
  | ret | unwinding =>
      rw [about] at staying
      exact absurd rfl staying
  | _ =>
      rw [about] at free
      cases free

/-- The call starts as such and is charged its fee, by cases on the operation. -/
theorem waitFree_call {op : Op K} (free : op.waitFree = true)
    (found : step dbg s t (.call op) = some s')
    : (s'.pc t).waitFree = true ∧ s'.bill ⟨0, 0⟩ t = op.fee ⟨0, 0⟩ s.len := by
  have starting (staged : Sys T K V E) {pc : Pc K V E} (reached : s' = staged.goto t pc)
      (start : pc.waitFree = true) :
      (s'.pc t).waitFree = true ∧ s'.bill ⟨0, 0⟩ t = pc.cost ⟨0, 0⟩ 0 := by
    have about : s'.pc t = pc := reached ▸ pc_goto_self _ _ _
    exact ⟨about ▸ start, bill_of_waitFree about start⟩
  have called := (call_of_step found).2
  cases op with
  | containsKey | lossyLen | lossyIsEmpty | capacity | reserve =>
      exact starting _ (Option.some.inj called).symm rfl
  | _ => cases free

variable {states : Nat → Sys T K V E} {labels : Nat → T × Choice K V E} {due k : Nat}

/-- A call that retries nothing, of which so many accesses are due in all. -/
structure OnTime (t : T) (states : Nat → Sys T K V E) (labels : Nat → T × Choice K V E)
    (due k : Nat)
    : Prop where
  free : ((states k).pc t).waitFree = true
  paid : total (ownWork t) states labels k + (states k).bill ⟨0, 0⟩ t ≤ due

/-- Its accesses are due to itself; no step of another activity costs it anything. -/
theorem OnTime.next (onTime : OnTime t states labels due k) (run : FairRun dbg states labels)
    (staying : ((states k).pc t).leaving ≠ true)
    : OnTime t states labels due (k + 1)
      ∧ (states k).ownWork t (labels k) + (states (k + 1)).bill ⟨0, 0⟩ t
        ≤ (states k).bill ⟨0, 0⟩ t := by
  obtain ⟨free, paid⟩ := onTime
  suffices moved : ((states (k + 1)).pc t).waitFree = true
      ∧ (states k).ownWork t (labels k) + (states (k + 1)).bill ⟨0, 0⟩ t
        ≤ (states k).bill ⟨0, 0⟩ t by
    refine ⟨⟨moved.1, ?_⟩, moved.2⟩
    have less := moved.2
    rw [total_succ]
    omega
  by_cases turn : (labels k).1 = t
  · have pays : (states k).ownWork t (labels k) + (states (k + 1)).bill ⟨0, 0⟩ t
        ≤ (states k).ownFee t (labels k) + (states k).bill ⟨0, 0⟩ t :=
      bill_amortizes t _ _ _ (run.steps k)
    subst turn
    obtain ⟨free', none, _⟩ := waitFree_turn free staying (run.steps k)
    have none : (states k).fee ⟨0, 0⟩ (labels k) = 0 := none
    rw [ownFee, if_pos rfl, none, Nat.zero_add] at pays
    exact ⟨free', pays⟩
  · have same := run.others (Ne.symm turn)
    refine ⟨same ▸ free, ?_⟩
    rw [bill_of_waitFree same free, bill_of_waitFree rfl free, ownWork, if_neg turn, Nat.zero_add]

/-- The next access brings such a call forward. -/
theorem OnTime.lowers (onTime : OnTime t states labels due k) (run : FairRun dbg states labels)
    : ∃ j ≥ k, OnTime t states labels due j → ((states j).pc t).leaving ≠ true →
        (states (j + 1)).bill ⟨0, 0⟩ t < (states j).bill ⟨0, 0⟩ t := by
  by_cases staying : ((states k).pc t).leaving = true
  · exact ⟨k, Nat.le_refl k, fun _ other => absurd staying other⟩
  · have running := Pc.running_of_waitFree onTime.free staying
    cases about : (states k).pc t with
    | waitForChunk idx next =>
        obtain ⟨j, later, turn, waiting, arrived⟩ := run.arrives about
        refine ⟨j, later, fun onTime _ => ?_⟩
        have free := onTime.free
        rw [waiting] at free
        rw [bill_of_waitFree waiting free, bill_of_waitFree arrived free]
        exact Nat.lt_succ_self _
    | _ =>
        obtain ⟨j, later, turn, same⟩ := run.turn running
        refine ⟨j, later, fun onTime staying => ?_⟩
        have less := (onTime.next run staying).2
        subst turn
        have firm := (waitFree_turn onTime.free staying (run.steps j)).2.2
        have access : (states j).ownWork (labels j).1 (labels j) = 1 := by
          rw [ownWork, if_pos rfl, work, same, running, firm, spins, same, about]
          rfl
        omega

end Sys

end

open Sys in
/-- In a run without end in which allocations are granted and no activity stops within a call, every
call of `contains_key`, `lossy_len`, `lossy_is_empty`, `capacity` and `reserve` comes to its end,
and it takes no more accesses than if it ran alone, whatever the others do meanwhile.
-/
theorem wait_free_calls_end [DecidableEq T] [Fintype T] {dbg : Bool}
    {states : Nat → Sys T K V E} {labels : Nat → T × Choice K V E}
    (run : FairRun dbg states labels) {i : Nat} {t : T} {op : Op K}
    (called : labels i = (t, .call op)) (free : op.waitFree = true)
    : ∃ j > i,
        ((states j).pc t).leaving = true
        ∧ total (ownWork t) states labels j
          ≤ total (ownWork t) states labels i + op.fee ⟨0, 0⟩ (states i).len := by
  have first := run.steps i
  rw [called] at first
  obtain ⟨free', charged⟩ := waitFree_call free first
  have nothing : (states i).ownWork t (labels i) = 0 := by
    have paused : ((states i).pc t).paused = true := by
      rcases (call_of_step first).1 with ⟨about, _⟩ | ⟨_, about, _⟩ <;> exact congrArg Pc.paused about
    rw [ownWork, called, if_pos rfl, work_of_paused paused]
  have onTime : OnTime t states labels
      (total (ownWork t) states labels i + op.fee ⟨0, 0⟩ (states i).len) (i + 1) := by
    refine ⟨free', ?_⟩
    rw [total_succ, nothing, charged]
    exact Nat.le_refl _
  obtain ⟨j, later, ended, onTime⟩ := reaches_of_rank (OnTime t states labels _)
    (fun k => ((states k).pc t).leaving = true) (fun k => (states k).bill ⟨0, 0⟩ t)
    (fun k onTime staying => by
      obtain ⟨onTime', less⟩ := onTime.next run staying
      exact ⟨onTime', Nat.le_trans (Nat.le_add_left _ _) less⟩)
    (fun k onTime => onTime.lowers run) onTime
  exact ⟨j, later, ended, Nat.le_trans (Nat.le_add_right _ _) onTime.paid⟩

open Sys in
/-- The lookup that waits comes to its end. -/
theorem wait_free_calls_end_lookUpWhileAllocating
    : ∃ j > 3,
        ((along false (.withKey Bool UInt64 Nat Empty)
          (prolonged true lookUpWhileAllocating) j).pc true).leaving = true := by
  have called : (prolonged true lookUpWhileAllocating 3 : Bool × Choice UInt64 Nat Empty)
      = (true, .call (.containsKey ((1 : UInt64) <<< 32))) := rfl
  obtain ⟨j, later, ended, _⟩ := wait_free_calls_end fairRun_lookUpWhileAllocating called rfl
  exact ⟨j, later, ended⟩

end AtomicSlotMap
