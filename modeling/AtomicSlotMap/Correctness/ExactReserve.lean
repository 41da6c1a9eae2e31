import AtomicSlotMap.Correctness.CapacityPromise
import AtomicSlotMap.Correctness.Locations
import AtomicSlotMap.Correctness.Reserve

/-! What `AtomicVec::reserve` allocates: the first chunks, as few as house the target, and nothing
else.
-/

namespace AtomicSlotMap

variable {T K V E : Type} [Key K]

/-- The chunk of the last index and those below it are the fewest that house a target. -/
theorem isLeast_chunks {target : Nat} (positive : target ≠ 0) (most : target ≤ 2 ^ 32)
    : IsLeast {k | target ≤ capacityBelow k} (chunkOf (target - 1) + 1) := by
  have last : target - 1 < 2 ^ 32 := by omega
  obtain ⟨start, next⟩ := chunkOf_bounds last
  refine ⟨?_, fun k enough => ?_⟩
  · change target ≤ capacityBelow (chunkOf (target - 1) + 1)
    omega
  · have enough : target ≤ capacityBelow k := enough
    by_contra fewer
    have := capacityBelow_mono (show k ≤ chunkOf (target - 1) by omega)
    omega

/-- A target that fits in the words needs no more chunks than there are. -/
theorem le_chunks_of_isLeast {target k : Nat} (most : target ≤ 2 ^ 32)
    (least : IsLeast {k | target ≤ capacityBelow k} k)
    : k ≤ CHUNKS := by
  apply least.2
  have total : capacityBelow CHUNKS = 11453246112 := by decide
  change target ≤ capacityBelow CHUNKS
  omega

omit [Key K] in
/-- A suspended activity has claimed no index. -/
theorem Pc.claims_of_suspended {pc : Pc K V E} (suspended : pc.suspended = true)
    : pc.claims = none := by
  cases pc <;> first | rfl | cases suspended

namespace Sys

variable [DecidableEq T] [Fintype T] {dbg : Bool} {s s' : Sys T K V E} {t : T} {k additional : Nat}

/-- A step of a single thread in which no allocation fails. -/
def LoneStep (dbg : Bool) (s s' : Sys T K V E) : Prop :=
  ∃ t choice, s.Alone t ∧ choice.supplies = true ∧ step dbg s t choice = some s'

theorem LoneStep.supplied (lone : LoneStep dbg s s') : SuppliedStep dbg s s' := by
  obtain ⟨t, choice, _, supplies, found⟩ := lone
  exact ⟨t, choice, supplies, found⟩

omit [Key K] in
/-- A single thread claims one index at a time. -/
theorem Alone.claimers (alone : s.Alone t) : s.claimers.card ≤ 1 := by
  have mine : s.claimers ⊆ {t} := by
    intro u member
    by_contra other
    have apart : u ≠ t := fun same => other (Finset.mem_singleton.mpr same)
    have claims := (Finset.mem_filter.mp member).2
    rw [Pc.claims_of_suspended (alone u apart)] at claims
    cases claims
  exact Finset.card_le_card mine

/-- A single thread allocates the chunks in order. -/
theorem chunksInOrder_of_alone (run : Relation.ReflTransGen (LoneStep dbg) (.withKey T K V E) s)
    : s.ChunksInOrder := by
  have few : Relation.ReflTransGen (fun s s' => SuppliedStep dbg s s' ∧ s.claimers.card ≤ 32)
      (.withKey T K V E) s := by
    apply Relation.ReflTransGen.mono ?_ _ _ run
    rintro before after lone
    obtain ⟨u, _, alone, _⟩ := id lone
    exact ⟨lone.supplied, Nat.le_trans alone.claimers (by decide)⟩
  exact chunksInOrder_of_run few

-----------------------------------------------------------------------------------------
-- What is allocated
-----------------------------------------------------------------------------------------

/-- The end of a call of `AtomicVec::reserve` that needs the first `k` chunks. -/
def ReservesExactly (s : Sys T K V E) (t : T) (target k : Nat) (s' : Sys T K V E) : Prop :=
  if 2 ^ 32 < target then s'.pc t = .unwinding ∧ s'.chunks = s.chunks ∧ s'.len = s.len
  else s.Provided t (· < k) s'

/-- `AtomicVec::reserve` sees to the fewest chunks that house the target. -/
theorem eventually_vecReserve_exactly (about : s.pc t = .vecReserve additional)
    (fits : s.len + additional < 2 ^ 64)
    (least : IsLeast {k | s.len + additional ≤ capacityBelow k} k)
    : Library.Eventually (Turn dbg t) (s.ReservesExactly t (s.len + additional) k) s := by
  refine eventually_vecReserve_cases about fits (fun nothing => ?_) (fun large => ?_)
    fun positive most s' provided => ?_
  · have none : k = 0 := Nat.le_zero.mp (least.2 (by rw [nothing]; exact Nat.zero_le _))
    rw [ReservesExactly, nothing, if_neg (by omega), none]
    exact ⟨pc_goto_self _ t _, fun chunk => by simp [goto], rfl⟩
  · rw [ReservesExactly, if_pos large]
    refine ⟨pc_unwind_self s t, chunks_unwind s t, ?_⟩
    rw [unwind_eq]
    rfl
  · rw [ReservesExactly, if_neg (by omega), least.unique (isLeast_chunks positive most)]
    exact provided

omit [Key K] [DecidableEq T] [Fintype T] in
/-- The capacity grows to that of the chunks seen to, unless it was larger already. -/
theorem Provided.capacity (provided : s.Provided t (· < k) s') (ordered : s.ChunksInOrder)
    (most : k ≤ CHUNKS)
    : s'.capacity = max s.capacity (capacityBelow k) := by
  obtain ⟨first, bounded, capacity, present, missing⟩ := s.exists_capacity
  rw [capacity, ← (show Monotone capacityBelow from fun _ _ => capacityBelow_mono).map_max]
  refine capacity_eq (by omega) (fun lower less => ?_) fun less => ?_
  · refine (provided.chunks lower).mpr ?_
    rcases lt_max_iff.mp less with before | before
    · exact Or.inl (present lower before)
    · exact Or.inr before
  · refine Option.not_isSome_iff_eq_none.mp fun found => ?_
    rcases (provided.chunks _).mp found with before | before
    · have none := missing (by omega)
      rcases Nat.lt_or_eq_of_le (Nat.le_max_left first k) with above | same
      · have lower := ordered _ before first above
        rw [none] at lower
        cases lower
      · rw [← same, none] at before
        cases before
    · omega

-----------------------------------------------------------------------------------------
-- Pushes that allocate nothing
-----------------------------------------------------------------------------------------

omit [Key K] in
/-- What is left to do after `ensure_chunk_exists` claims no index. -/
theorem claims_resume (after : AfterEnsure) : (after.resume : Pc K V E).claims = none := by
  cases after with
  | pushed => rfl
  | reserving =>
      simp only [AfterEnsure.resume]
      split <;> rfl

/-- An activity that pushes this index is about to allocate its chunk. -/
def AllocatesFor (s : Sys T K V E) (t : T) (idx : Nat) : Prop :=
  s.pc t = .ensureAlloc (chunkOf idx) (.pushed idx)

omit [Key K] [DecidableEq T] [Fintype T] in
theorem AllocatesFor.claims {idx : Nat} (allocates : s.AllocatesFor t idx)
    : (s.pc t).claims = some idx := by
  rw [allocates]
  rfl

/-- A push that finds its chunk allocates nothing, by cases on where it stands. -/
theorem not_allocatesFor_of_step {idx : Nat} {choice : Choice K V E} (claimed : s.Claimed)
    (present : (s.chunks (chunkOf idx)).isSome) (quiet : ¬ s.AllocatesFor t idx)
    (supplies : choice.supplies = true) (found : step dbg s t choice = some s')
    : ¬ s'.AllocatesFor t idx := by
  intro allocates
  have ensures := claimed.ensures t
  have claims' := allocates.claims
  cases (step_moves found).chunked (supplied_of_step supplies found) ensures with
  | pushed about reached =>
      rw [reached, AllocatesFor, pushZeroed, pc_goto_self] at allocates
      cases allocates
  | installed chunk buffer after about reached =>
      rw [reached, pc_goto_self, claims_resume] at claims'
      cases claims'
  | going chunks len handed goes =>
      have claims : (s.pc t).claims = some idx := by
        rcases goes.2 with same | ⟨none, _⟩
        · exact same ▸ claims'
        · rw [none] at claims'
          cases claims'
      cases about : s.pc t with
      | ensureLoad chunk after =>
          rw [about] at claims ensures
          cases after with
          | reserving => cases claims
          | pushed other =>
              cases claims
              cases (show chunk = chunkOf idx from ensures)
              simp only [step, about, if_pos present] at found
              rw [Choice.eq_of_onGo found, pc_goto_self] at claims'
              cases claims'
      | ensureAlloc chunk after =>
          rw [about] at claims ensures
          cases after with
          | reserving => cases claims
          | pushed other =>
              cases claims
              cases (show chunk = chunkOf idx from ensures)
              exact quiet about
      | ensureCas chunk new after =>
          simp only [step, about, installChunk] at found
          rw [Choice.eq_of_onGo found] at claims'
          split at claims'
          · rw [pc_goto_self, claims_resume] at claims'
            cases claims'
          · rw [pc_goto_self] at claims'
            cases claims'
      | _ =>
          rw [about] at claims
          cases claims

/-- Pushes of indices that are housed allocate nothing, by induction on the run. -/
theorem allocates_beyond_of_run {bound : Nat} (claimed : s.Claimed) (wellFormed : s.WellFormed)
    (housed : ∀ idx < bound, (s.chunks (chunkOf idx)).isSome)
    (quiet : ∀ u idx, s.AllocatesFor u idx → bound ≤ idx)
    (run : Relation.ReflTransGen (SuppliedStep dbg) s s') (u : T) (idx : Nat)
    (allocates : s'.AllocatesFor u idx)
    : bound ≤ idx := by
  induction run with
  | refl => exact quiet u idx allocates
  | @tail middle last run step ih =>
      by_contra less
      obtain ⟨t, choice, supplies, found⟩ := step
      have present := present_of_run (steps_of_supplied run) (housed idx (Nat.lt_of_not_le less))
      by_cases self : u = t
      · subst u
        exact not_allocatesFor_of_step (claimed.of_run wellFormed run).1 present
          (fun before => less (ih before)) supplies found allocates
      · rw [AllocatesFor, (step_moves found).others u self] at allocates
        exact less (ih allocates)

-----------------------------------------------------------------------------------------
-- After a call
-----------------------------------------------------------------------------------------

/-- Turns of an activity leave the program counters of the others, by induction on the turns. -/
theorem pc_of_turns (turns : Relation.ReflTransGen (Turn dbg t) s s') {u : T} (apart : u ≠ t)
    : s'.pc u = s.pc u := by
  induction turns with
  | refl => rfl
  | tail _ last ih =>
      obtain ⟨_, choice, _, found⟩ := last
      exact ((step_moves found).others u apart).trans ih

/-- What a call of `AtomicVec::reserve` with this target comes to, if the target needs the first
`k` chunks: the panic, the chunks, the length and capacity, and the pushes that follow.
-/
structure ReservedExactly (dbg : Bool) (s : Sys T K V E) (t : T) (target k : Nat)
    (s' : Sys T K V E)
    : Prop where
  ends : s'.pc t = .unwinding ∨ s'.pc t = .ret .done
  panics : s'.pc t = .unwinding ↔ 2 ^ 32 < target
  len : s'.len = s.len
  fits : s'.len ≤ s'.capacity
  chunks
    : target ≤ 2 ^ 32 →
        ∀ chunk, (s'.chunks chunk).isSome ↔ (s.chunks chunk).isSome ∨ chunk < k
  capacity : target ≤ 2 ^ 32 → s'.capacity = max s.capacity (capacityBelow k)
  pushes
    : target ≤ 2 ^ 32 →
        ∀ later, Relation.ReflTransGen (SuppliedStep dbg) s' later →
          ∀ u idx, later.AllocatesFor u idx → target ≤ idx

omit [Fintype T] in
/-- An activity at rest may call `AtomicVec::reserve`. -/
theorem Claimed.goto_vecReserve (claimed : s.Claimed) (wellFormed : s.WellFormed)
    (rests : s.pc t = .idle) (additional : Nat)
    : (s.goto t (.vecReserve additional)).Claimed
      ∧ (s.goto t (.vecReserve additional)).WellFormed := by
  have others (u : T) (apart : u ≠ t) : (s.goto t (.vecReserve additional)).pc u = s.pc u :=
    pc_goto_of_ne s t apart _
  refine ⟨claimed.going (t := t) (fun _ => id) rfl rfl others ?_, ⟨fun u => ?_, wellFormed.len,
    wellFormed.versions⟩⟩
  · rw [pc_goto_self, rests]
    exact ⟨trivial, Or.inl rfl⟩
  · by_cases self : u = t
    · subst u
      rw [pc_goto_self]
      trivial
    · rw [others u self]
      exact wellFormed.locals u

/-- `AtomicVec::reserve` does what it should in every state of a single thread. -/
theorem eventually_reservedExactly
    (run : Relation.ReflTransGen (LoneStep dbg) (.withKey T K V E) s) (rests : s.pc t = .idle)
    (alone : s.Alone t) (fits : s.len + additional < 2 ^ 64)
    (least : IsLeast {k | s.len + additional ≤ capacityBelow k} k)
    : Library.Eventually (Turn dbg t) (s.ReservedExactly dbg t (s.len + additional) k)
        (s.goto t (.vecReserve additional)) := by
  let target := s.len + additional
  let calling : Sys T K V E := s.goto t (.vecReserve additional)
  have supplied : Relation.ReflTransGen (SuppliedStep dbg) (.withKey T K V E) s :=
    Relation.ReflTransGen.mono (fun _ _ => LoneStep.supplied) _ _ run
  have ordered := chunksInOrder_of_alone run
  obtain ⟨claimed, wellFormed⟩ := claimed_of_run supplied
  have housed (idx : Nat) (less : idx < s.len) : (s.chunks (chunkOf idx)).isSome :=
    housed_of_alone supplied (by rw [rests]; rfl) alone less
  have enough : s.len ≤ s.capacity := len_le_capacity housed wellFormed.len
  have start : calling.pc t = .vecReserve additional := pc_goto_self s t _
  refine (eventually_vecReserve_exactly start fits least).with_run.mono ?_
  rintro s' ⟨reserves, turns⟩
  have kept : calling.len + additional = target := rfl
  rw [ReservesExactly, kept] at reserves
  split at reserves
  · next large =>
    obtain ⟨unwinding, chunks, len⟩ := reserves
    have capacity : s'.capacity = s.capacity := capacity_congr chunks
    refine ⟨Or.inl unwinding, iff_of_true unwinding large, len, ?_, fun small => ?_,
      fun small => ?_, fun small => ?_⟩
    · rw [len, capacity]
      exact enough
    all_goals exact absurd large (Nat.not_lt_of_le small)
  · next small =>
    have small : target ≤ 2 ^ 32 := Nat.le_of_not_lt small
    have provided : s.Provided t (· < k) s' := ⟨reserves.done, reserves.chunks, reserves.len⟩
    have capacity := provided.capacity ordered (le_chunks_of_isLeast small least)
    refine ⟨Or.inr provided.done, ?_, provided.len, ?_, fun _ => provided.chunks,
      fun _ => capacity, fun _ later after => ?_⟩
    · rw [provided.done]
      exact iff_of_false nofun (Nat.not_lt_of_le small)
    · rw [provided.len, capacity]
      exact le_max_of_le_left enough
    · obtain ⟨claimed', wellFormed'⟩ := claimed.goto_vecReserve wellFormed rests additional
      obtain ⟨claimed'', wellFormed''⟩ := claimed'.of_run wellFormed'
        (Relation.ReflTransGen.mono (fun _ _ turn => ⟨t, turn.2⟩) _ _ turns)
      refine allocates_beyond_of_run claimed'' wellFormed'' (fun idx less => ?_)
        (fun u idx allocates => ?_) after
      · refine (provided.chunks _).mpr (Or.inr ?_)
        by_contra beyond
        have below := capacityBelow_mono (Nat.le_of_not_lt beyond)
        have most : target ≤ capacityBelow k := least.1
        have first := (chunkOf_bounds (show idx < 2 ^ 32 by omega)).1
        omega
      · exfalso
        have claims := allocates.claims
        by_cases self : u = t
        · rw [self, provided.done] at claims
          cases claims
        · rw [pc_of_turns turns self, pc_goto_of_ne s t self,
            Pc.claims_of_suspended (alone u self)] at claims
          cases claims

/-- `AtomicVec::with_capacity`: a new vector, and the call of `reserve` on it. -/
def withCapacity (T K V E : Type) [DecidableEq T] (t : T) (cap : Nat) : Sys T K V E :=
  (Sys.withKey T K V E).goto t (.vecReserve cap)

/-- A new vector of this capacity has the fewest chunks that suffice. -/
theorem eventually_withCapacity (dbg : Bool) (t : T) {cap : Nat} (most : cap ≤ 2 ^ 32)
    : ∃ k, IsLeast {k | cap ≤ capacityBelow k} k
        ∧ Library.Eventually (Turn dbg t)
            (fun s' => s'.pc t = .ret .done ∧ s'.capacity = capacityBelow k)
            (withCapacity T K V E t cap) := by
  have target : (Sys.withKey T K V E).len + cap = cap := Nat.zero_add cap
  have empty : (Sys.withKey T K V E).capacity = 0 :=
    capacity_eq (Nat.zero_le CHUNKS) nofun fun _ => rfl
  obtain ⟨k, least⟩ : ∃ k, IsLeast {k | cap ≤ capacityBelow k} k := by
    by_cases nothing : cap = 0
    · exact ⟨0, by simp [nothing], fun _ _ => Nat.zero_le _⟩
    · exact ⟨_, isLeast_chunks nothing most⟩
  have reserved : Library.Eventually (Turn dbg t)
      ((Sys.withKey T K V E).ReservedExactly dbg t ((Sys.withKey T K V E).len + cap) k)
      (withCapacity T K V E t cap) := by
    apply eventually_reservedExactly .refl rfl fun _ _ => rfl
    · rw [target]
      omega
    · rwa [target]
  rw [target] at reserved
  refine ⟨k, least, reserved.mono fun s' reserved => ⟨reserved.ends.resolve_left ?_, ?_⟩⟩
  · exact fun panics => absurd (reserved.panics.mp panics) (Nat.not_lt_of_le most)
  · rw [reserved.capacity most, empty, Nat.zero_max]

end Sys

open Sys in
/-- In every state of a single thread, `AtomicVec::reserve(additional)` panics exactly if the
target is more than `2 ^ 32`, and otherwise allocates the fewest first chunks that house it;
pushes below the target allocate nothing later. So `with_capacity` has the least capacity of
whole chunks that suffices, as `capacity` tells.
-/
theorem reserve_exact {T K V E : Type} [DecidableEq T] [Fintype T] [Key K] (dbg : Bool)
    : (∀ (s : Sys T K V E) (t : T) (additional k : Nat),
        Relation.ReflTransGen (LoneStep dbg) (.withKey T K V E) s
        → s.pc t = .idle
        → s.Alone t
        → s.len + additional < 2 ^ 64
        → IsLeast {k | s.len + additional ≤ capacityBelow k} k
        → Library.Eventually (Turn dbg t) (s.ReservedExactly dbg t (s.len + additional) k)
            (s.goto t (.vecReserve additional)))
      ∧ (∀ t : T, ∀ cap ≤ 2 ^ 32, ∃ k,
          IsLeast {k | cap ≤ capacityBelow k} k
          ∧ Library.Eventually (Turn dbg t)
              (fun s' => s'.pc t = .ret .done ∧ s'.capacity = capacityBelow k)
              (withCapacity T K V E t cap))
      ∧ (∀ (s : Sys T K V E) (t : T), s.pc t = .capacityLoad 0 0 →
          Library.Eventually (Turn dbg t) (fun s' => s'.pc t = .ret (.capacity s.capacity)) s)
      ∧ ∀ k, capacityBelow k = ∑ j ∈ Finset.range k, 32 * 4 ^ j :=
  ⟨fun _ _ _ _ => eventually_reservedExactly, fun t _ => eventually_withCapacity dbg t,
    fun _ _ about => eventually_capacity about (Nat.zero_add CHUNKS) nofun,
    fun k => (sum_sizes k).symm⟩

open Sys in
/-- A single thread that has inserted one value asks the vector for 32 more, and gets the second
chunk.
-/
theorem reserve_exact_insertAlone
    : ∃ s : Sys Unit UInt64 Nat Empty,
        s.len = 1
        ∧ s.capacity = 32
        ∧ Library.Eventually (Turn false ())
            (fun s' =>
              s'.pc () = .ret .done
              ∧ s'.capacity = 160
              ∧ ∀ later, Relation.ReflTransGen (SuppliedStep false) s' later →
                  ∀ idx, later.AllocatesFor () idx → 33 ≤ idx)
            (s.goto () (.vecReserve 32)) := by
  have found : (runIf (fun s t => decide (s.Alone t)) false (.withKey Unit UInt64 Nat Empty)
      insertAlone).map (fun s => ((s.pc ()).idle?, s.len, s.capacity)) = some (true, 1, 32) := by
    decide +kernel
  obtain ⟨s, reached, after⟩ := Option.map_eq_some_iff.mp found
  simp only [Prod.mk.injEq] at after
  obtain ⟨idle, len, capacity⟩ := after
  have run : Relation.ReflTransGen (LoneStep false) (.withKey Unit UInt64 Nat Empty) s := by
    refine Relation.ReflTransGen.mono ?_ _ _ (suppliedSteps_of_runIf reached (by decide +kernel))
    exact fun _ _ ⟨t, choice, alone, supplies, step⟩ =>
      ⟨t, choice, of_decide_eq_true alone, supplies, step⟩
  have least : IsLeast {k | s.len + 32 ≤ capacityBelow k} 2 := by
    rw [len]
    refine ⟨by decide, fun k enough => ?_⟩
    by_contra less
    have one : k ≤ 1 := by omega
    exact absurd (enough.trans (capacityBelow_mono one)) (by decide)
  have small : s.len + 32 ≤ 2 ^ 32 := by
    rw [len]
    decide
  refine ⟨s, len, capacity, ?_⟩
  refine ((reserve_exact false).1 s () 32 2 run (Pc.eq_idle idle) (fun _ apart => absurd rfl apart)
    (small.trans_lt (by decide)) least).mono fun s' reserved => ?_
  refine ⟨reserved.ends.resolve_left fun panics => ?_, ?_, fun later more idx pushing => ?_⟩
  · exact absurd (reserved.panics.mp panics) (Nat.not_lt_of_le small)
  · rw [reserved.capacity small, capacity]
    rfl
  · have beyond := reserved.pushes small later more () idx pushing
    rw [len] at beyond
    exact beyond

end AtomicSlotMap
