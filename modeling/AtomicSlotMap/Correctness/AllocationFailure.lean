import AtomicSlotMap.Correctness.ChunkWaits

/-! Failed allocations. The length is advanced before the allocation: a null pointer, or a panic
inside `push_zeroed`, leaves an index below the length without its chunk, and whoever gets to it
waits forever. If no allocation returns null and layouts overflow in `reserve` only, a single
thread never waits.
-/

namespace AtomicSlotMap

variable {T K V E : Type} [Key K]

/-- What the caller of `ensure_chunk_exists` does next, while an activity is inside of it. -/
def Pc.afterEnsure : Pc K V E → Option AfterEnsure
  | .ensureLoad _ after | .ensureAlloc _ after | .ensureCas _ _ after | .ensureDealloc _ after =>
      some after
  | _ => none

omit [Key K] in
theorem Pc.suspended_of_pushing {pc : Pc K V E} {idx : Nat} (pushing : pc.Pushing idx)
    : pc.suspended = false := by
  cases pc with
  | ensureLoad | ensureAlloc | ensureCas => rfl
  | _ => cases pushing

omit [Key K] in
/-- The call goes on outside of the allocation. -/
theorem AfterEnsure.resume_ne (after next : AfterEnsure) (chunk : Nat) (new : Option Nat)
    : (after.resume : Pc K V E) ≠ .ensureAlloc chunk next
      ∧ (after.resume : Pc K V E) ≠ .ensureCas chunk new next
      ∧ (after.resume : Pc K V E) ≠ .ensureDealloc new next
      ∧ (after.resume : Pc K V E) ≠ .unwinding := by
  cases after with
  | pushed idx => simp [AfterEnsure.resume]
  | reserving current maxChunk =>
      simp only [AfterEnsure.resume]
      split <;> simp

namespace Sys

/-- At most one activity is running, the others are suspended. -/
def Single (s : Sys T K V E) : Prop :=
  ∀ t u, (s.pc t).suspended = false → (s.pc u).suspended = false → t = u

variable [DecidableEq T] [Fintype T] {dbg : Bool} {s s' : Sys T K V E} {t : T}
  {choice : Choice K V E}

/-- A step of a single thread, whatever the allocator does. -/
def AloneNext (dbg : Bool) (s s' : Sys T K V E) : Prop :=
  ∃ t choice, s.Alone t ∧ step dbg s t choice = some s'

/-- A step of a single thread in which no allocation returns null and no layout overflows inside
`push_zeroed`.
-/
def GrantedNext (dbg : Bool) (s s' : Sys T K V E) : Prop :=
  ∃ t choice, s.Alone t ∧ s.Grants t choice ∧ step dbg s t choice = some s'

theorem GrantedNext.granted (next : GrantedNext dbg s s') : GrantedStep dbg s s' := by
  obtain ⟨t, choice, _, grants, found⟩ := next
  exact ⟨t, choice, grants, found⟩

theorem Alone.single (alone : s.Alone t) (found : step dbg s t choice = some s') : s'.Single := by
  have mine (other : T) (running : (s'.pc other).suspended = false) : other = t := by
    by_contra apart
    rw [(step_moves found).others other apart, alone other apart] at running
    cases running
  intro u v first second
  rw [mine u first, mine v second]

/-- A single thread has one running activity, by its last step. -/
theorem single_of_run (run : Relation.ReflTransGen (GrantedNext dbg) (.withKey T K V E) s)
    : s.Single := by
  induction run with
  | refl => exact fun _ _ running => nomatch running
  | tail _ last _ =>
      obtain ⟨t, choice, alone, _, found⟩ := last
      exact alone.single found

/-- `ensure_chunk_exists` only returns once its chunk is there, by cases on the access. -/
theorem Claimed.ensured_of_returns (claimed : s.Claimed)
    (found : step dbg s t choice = some s') {after : AfterEnsure}
    (ensuring : (s.pc t).afterEnsure = some after) (returns : s'.pc t = after.resume)
    : after.Ensured fun chunk => (s'.chunks chunk).isSome := by
  have ensures := claimed.ensures t
  cases about : s.pc t with
  | ensureLoad chunk next =>
      rw [about] at ensuring ensures
      cases ensuring
      simp only [step, about] at found
      cases Choice.eq_of_onGo found
      split at returns
      · next present => exact AfterEnsure.About.ensured ensures present
      · rw [pc_goto_self] at returns
        exact absurd returns.symm (after.resume_ne after chunk none).1
  | ensureAlloc chunk next =>
      rw [about] at ensuring
      cases ensuring
      simp only [step, about] at found
      cases choice with
      | go | allocNull =>
          cases found
          rw [pc_goto_self] at returns
          exact absurd returns.symm (after.resume_ne after chunk _).2.1
      | layoutOverflow =>
          cases found
          rw [pc_unwind_self] at returns
          exact absurd returns.symm (after.resume_ne after chunk none).2.2.2
      | _ => cases found
  | ensureCas chunk new next =>
      rw [about] at ensuring
      cases ensuring
      simp only [step, about] at found
      cases Choice.eq_of_onGo found
      rw [installChunk] at returns ⊢
      split at returns
      · next absent =>
        rw [if_pos absent]
        exact claimed.ensured about
      · rw [pc_goto_self] at returns
        exact absurd returns.symm (after.resume_ne after chunk new).2.2.1
  | ensureDealloc new next =>
      rw [about] at ensuring ensures
      cases ensuring
      simp only [step, about] at found
      cases Choice.eq_of_onGo found
      exact ensures
  | _ =>
      rw [about] at ensuring
      cases ensuring

end Sys

open Sys in
/-- If no allocation returns null and no layout overflows inside `push_zeroed`, then in every run
of a single thread each index below the length has its chunk whenever `push_zeroed` is not under
way, `ensure_chunk_exists` returns with the chunks it was to ensure, and no wait meets a missing
chunk.
-/
theorem no_wait_without_failed_allocation [DecidableEq T] [Fintype T] {dbg : Bool}
    {s : Sys T K V E} (run : Relation.ReflTransGen (GrantedNext dbg) (.withKey T K V E) s)
    : ((∀ t idx, ¬ (s.pc t).Pushing idx) →
        ∀ idx < s.len, (s.chunks (chunkOf idx)).isSome)
      ∧ (∀ t choice s' after, step dbg s t choice = some s' → (s.pc t).afterEnsure = some after →
          s'.pc t = after.resume → after.Ensured fun chunk => (s'.chunks chunk).isSome)
      ∧ ∀ t idx next, s.pc t = .waitForChunk idx next → (s.chunks (chunkOf idx)).isSome := by
  have granted : Relation.ReflTransGen (GrantedStep dbg) (.withKey T K V E) s :=
    Relation.ReflTransGen.mono (fun _ _ => GrantedNext.granted) _ _ run
  obtain ⟨claimed, _⟩ := Claimed.withKey.of_granted .withKey granted
  refine ⟨fun quiet idx within => ?_, fun t choice s' after found ensuring returns => ?_,
    fun t idx next about => ?_⟩
  · rcases claimed.present_or_pushing (claimed.filled idx within) with present | ⟨t, pushing⟩
    · exact present
    · exact absurd pushing (quiet t idx)
  · exact claimed.ensured_of_returns found ensuring returns
  · by_contra missing
    obtain ⟨_, _, u, pushing⟩ := (reaching_of_run granted).waits claimed about missing
    have waiting : (s.pc t).suspended = false := by
      rw [about]
      rfl
    have same := single_of_run run t u waiting (Pc.suspended_of_pushing pushing)
    rw [← same, about] at pushing
    cases pushing

/-- A reservation and two insertions of a single thread; the second one is in its closure. -/
def reserveAndInsert : List (Unit × Choice UInt64 Nat Empty) :=
  Sys.turns () [.call (.reserve 1), .go, .go, .go, .go, .go, .go, .go]
  ++ Sys.turns () [.call .tryInsertWithKey, .go, .go, .go]

open Sys in
/-- After that the chunk of the index that has been claimed is there. -/
theorem no_wait_without_failed_allocation_reserveAndInsert
    : ∃ s : Sys Unit UInt64 Nat Empty,
        s.len = 1
        ∧ s.pc () = .closure 0 1
        ∧ (s.chunks 0).isSome := by
  have found : (Sys.runIf (fun s t => decide (s.Alone t)) false (.withKey Unit UInt64 Nat Empty)
      reserveAndInsert).map (fun s => (s.len, s.pc ())) = some (1, .closure 0 1) := by
    rfl
  obtain ⟨s, reached, after⟩ := Option.map_eq_some_iff.mp found
  simp only [Prod.mk.injEq] at after
  obtain ⟨len, about⟩ := after
  have run : Relation.ReflTransGen (GrantedNext false) (.withKey Unit UInt64 Nat Empty) s := by
    refine Relation.ReflTransGen.mono ?_ _ _ (suppliedSteps_of_runIf reached (by decide +kernel))
    rintro before after ⟨t, choice, checked, supplies, step⟩
    exact ⟨t, choice, of_decide_eq_true checked, grants_of_supplies before t supplies, step⟩
  refine ⟨s, len, about, (no_wait_without_failed_allocation run).1 (fun t idx pushing => ?_) 0 ?_⟩
  · rw [about] at pushing
    exact pushing
  · rw [len]
    exact Nat.one_pos

-----------------------------------------------------------------------------------------
-- Waiting forever
-----------------------------------------------------------------------------------------

/-- An insertion to which the allocator returns null. -/
def insertIntoNull : List (Unit × Choice UInt64 Nat Empty) :=
  Sys.turns () [.call .tryInsertWithKey, .go, .go, .go, .allocNull, .go, .closureOk 7]

/-- A layout overflows in an insertion, and the thread goes on to look the index up. -/
def lookUpAfterOverflow : List (Unit × Choice UInt64 Nat Empty) :=
  Sys.turns () [.call .tryInsertWithKey, .go, .go, .go, .layoutOverflow, .go]
  ++ Sys.turns () [.call (.containsKey ((1 : UInt64) <<< 32)), .go]

namespace Sys

variable [DecidableEq T] [Fintype T] {dbg : Bool} {s s' : Sys T K V E} {t : T}

/-- A thread that waits for a missing chunk waits forever, by induction on the run. -/
theorem eq_of_hangs (only : ∀ u : T, u = t) {idx : Nat} {next : Pc K V E}
    (about : s.pc t = .waitForChunk idx next) (missing : s.chunks (chunkOf idx) = none)
    (run : Relation.ReflTransGen (Step dbg) s s')
    : s' = s := by
  induction run with
  | refl => rfl
  | tail _ last ih =>
      subst ih
      obtain ⟨u, choice, found⟩ := last
      cases only u
      rcases step_wait about found with ⟨present, _⟩ | ⟨_, same⟩
      · rw [missing] at present
        cases present
      · exact same

/-- A schedule of a single thread that ends in a wait for an index below the length, which has no
chunk although `push_zeroed` is over, and the thread waits forever.
-/
def Hangs (schedule : List (Unit × Choice UInt64 Nat Empty)) : Prop :=
  ∃ s : Sys Unit UInt64 Nat Empty,
    runIf (fun s t => decide (s.Alone t)) false (.withKey Unit UInt64 Nat Empty) schedule = some s
    ∧ Relation.ReflTransGen (AloneNext false) (.withKey Unit UInt64 Nat Empty) s
    ∧ s.len = 1
    ∧ s.chunks (chunkOf 0) = none
    ∧ (∃ next, s.pc () = .waitForChunk 0 next)
    ∧ ∀ s', Relation.ReflTransGen (Step false) s s' → s' = s

theorem hangs_of_waits {schedule : List (Unit × Choice UInt64 Nat Empty)}
    {next : Pc UInt64 Nat Empty}
    (found
      : (runIf (fun s t => decide (s.Alone t)) false (.withKey Unit UInt64 Nat Empty)
          schedule).map (fun s => (s.len, s.chunks (chunkOf 0), s.pc ()))
        = some (1, none, .waitForChunk 0 next))
    : Hangs schedule := by
  obtain ⟨s, reached, after⟩ := Option.map_eq_some_iff.mp found
  simp only [Prod.mk.injEq] at after
  obtain ⟨len, missing, about⟩ := after
  refine ⟨s, reached, ?_, len, missing, ⟨next, about⟩, fun s' more => ?_⟩
  · refine Relation.ReflTransGen.mono ?_ _ _ (steps_of_runIf reached)
    rintro before after ⟨t, choice, checked, step⟩
    exact ⟨t, choice, of_decide_eq_true checked, step⟩
  · exact eq_of_hangs (fun _ => rfl) about missing more

end Sys

/-- After a null pointer the insertion itself waits forever, and after a panic on a layout the
next lookup of the index does.
-/
theorem hangs_after_failed_allocation
    : Sys.Hangs insertIntoNull ∧ Sys.Hangs lookUpAfterOverflow := by
  constructor
  · apply @Sys.hangs_of_waits _ (.insertWrite 0 1 7)
    rfl
  · apply @Sys.hangs_of_waits _ (.containsVersion ((1 : UInt64) <<< 32))
    rfl

end AtomicSlotMap
