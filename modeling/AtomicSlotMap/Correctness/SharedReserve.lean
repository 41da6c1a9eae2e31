import AtomicSlotMap.Correctness.CapacityPromise
import AtomicSlotMap.Correctness.ChunkWaits
import AtomicSlotMap.Correctness.MemorySafety

/-! What `reserve` promises while other activities use the map: once it returns there is capacity
for the elements that it counted and the additional ones, whoever pushes, reserves or installs
chunks in the meantime, and nobody takes that capacity away.
-/

namespace AtomicSlotMap

variable {T K V E : Type} [Key K]

/-- What is left to do for a reservation of this many elements. -/
def AfterEnsure.Reserving (target : Nat) : AfterEnsure → Prop
  | .pushed _ => False
  | .reserving _ maxChunk => maxChunk < CHUNKS ∧ target ≤ capacityBelow (maxChunk + 1)

/-- The first chunks, enough for this many elements, are there. -/
def Sys.Covers (s : Sys T K V E) (target : Nat) : Prop :=
  ∃ chunks ≤ CHUNKS, target ≤ capacityBelow chunks ∧ ∀ chunk < chunks, (s.chunks chunk).isSome

/-- Where an activity stands in a reservation of this many elements, once it has counted them. -/
def Pc.Reserving (target : Nat) (s : Sys T K V E) : Pc K V E → Prop
  | .reserveSlots total => total = target
  | .vecReserve additional => target ≤ s.len + additional ∧ additional ≤ target
  | .ensureLoad _ after | .ensureAlloc _ after | .ensureCas _ _ after
  | .ensureDealloc _ after => after.Reserving target
  | .ret _ => s.Covers target
  | .unwinding => True
  | _ => False

/-- The call is over, but for the return to the caller. -/
def Pc.ended : Pc K V E → Bool
  | .ret _ | .unwinding => true
  | _ => false

namespace Sys

variable [DecidableEq T] [Fintype T] {dbg : Bool} {s s' : Sys T K V E} {t : T}
  {target additional : Nat}

/-- A step within the limits in which allocations are granted. -/
def ProvidedNext (dbg : Bool) (s s' : Sys T K V E) : Prop :=
  ∃ t choice, s.Within t ∧ s.Grants t choice ∧ step dbg s t choice = some s'

/-- Such a step while the call of an activity lasts. -/
def CallNext (dbg : Bool) (t : T) (s s' : Sys T K V E) : Prop :=
  (s.pc t).ended = false ∧ ProvidedNext dbg s s'

theorem ProvidedNext.granted (next : ProvidedNext dbg s s') : GrantedStep dbg s s' := by
  obtain ⟨t, choice, _, grants, found⟩ := next
  exact ⟨t, choice, grants, found⟩

omit [Key K] [DecidableEq T] [Fintype T] in
theorem Covers.mono (covers : s.Covers target)
    (more : ∀ chunk, (s.chunks chunk).isSome → (s'.chunks chunk).isSome)
    : s'.Covers target := by
  obtain ⟨chunks, bounded, enough, present⟩ := covers
  exact ⟨chunks, bounded, enough, fun chunk less => more chunk (present chunk less)⟩

omit [Key K] [DecidableEq T] [Fintype T] in
/-- The end of `ensure_chunk_exists` goes on with the reservation, or it is through. -/
theorem reserving_resume {after : AfterEnsure} (reserving : after.Reserving target)
    (ensured : after.Ensured fun chunk => (s.chunks chunk).isSome)
    : (after.resume : Pc K V E).Reserving target s := by
  cases after with
  | pushed idx => exact reserving.elim
  | reserving chunk maxChunk =>
      obtain ⟨bounded, enough⟩ := reserving
      simp only [AfterEnsure.resume]
      split
      · exact ⟨bounded, enough⟩
      · exact ⟨maxChunk + 1, bounded, enough, fun lower less => ensured lower (by omega)⟩

omit [Key K] [DecidableEq T] [Fintype T] in
/-- More indices and more chunks do no harm. -/
theorem reserving_mono {pc : Pc K V E} (reserving : pc.Reserving target s) (len : s.len ≤ s'.len)
    (more : ∀ chunk, (s.chunks chunk).isSome → (s'.chunks chunk).isSome)
    : pc.Reserving target s' := by
  cases pc with
  | vecReserve additional =>
      exact ⟨Nat.le_trans reserving.1 (Nat.add_le_add_right len _), reserving.2⟩
  | ret res => exact reserving.mono more
  | unwinding => trivial
  | reserveSlots | ensureLoad | ensureAlloc | ensureCas | ensureDealloc => exact reserving
  | _ => exact reserving.elim

/-- The activity that reserves goes on with it, by cases on where it stands. -/
theorem reserving_step {choice : Choice K V E} (claimed : s.Claimed) (small : s.len < 2 ^ 32)
    (fits : target + 2 ^ 32 ≤ 2 ^ 64) (running : (s.pc t).ended = false)
    (reserving : (s.pc t).Reserving target s) (found : step dbg s t choice = some s')
    : (s'.pc t).Reserving target s' := by
  have ensures := claimed.ensures t
  have moves := step_moves found
  cases about : s.pc t with
  | reserveSlots total =>
      rw [about] at reserving
      obtain rfl := reserving
      simp only [step, about] at found
      cases Choice.eq_of_onGo found
      rw [pc_goto_self]
      exact ⟨by simp only [goto]; omega, Nat.sub_le _ _⟩
  | vecReserve additional =>
      rw [about] at reserving
      obtain ⟨enough, most⟩ := reserving
      simp only [step, about] at found
      cases Choice.eq_of_onGo found
      rw [Sys.vecReserve, addUsize_of_fits (by omega)]
      simp only
      split
      · next nothing =>
        rw [pc_goto_self]
        exact ⟨0, Nat.zero_le _, by omega, fun _ less => absurd less (Nat.not_lt_zero _)⟩
      · split
        · rw [pc_unwind_self]
          trivial
        · rw [pc_goto_self]
          have last : s.len + additional - 1 < 2 ^ 32 := by omega
          have next := (chunkOf_bounds last).2
          exact ⟨chunkOf_lt last, by omega⟩
  | ensureLoad chunk after =>
      rw [about] at reserving ensures
      simp only [step, about] at found
      cases Choice.eq_of_onGo found
      rw [pc_goto_self]
      split
      · next present => exact reserving_resume reserving (ensures.ensured present)
      · exact reserving
  | ensureAlloc chunk after =>
      rw [about] at reserving
      simp only [step, about] at found
      cases choice with
      | go | allocNull =>
          cases found
          rw [pc_goto_self]
          exact reserving
      | layoutOverflow =>
          cases found
          rw [pc_unwind_self]
          trivial
      | _ => cases found
  | ensureCas chunk new after =>
      have ensured := claimed.ensured about
      rw [about] at reserving
      simp only [step, about] at found
      cases Choice.eq_of_onGo found
      rw [installChunk]
      split
      · rw [pc_goto_self]
        exact reserving_resume reserving ensured
      · rw [pc_goto_self]
        exact reserving
  | ensureDealloc new after =>
      rw [about] at reserving ensures
      simp only [step, about] at found
      cases Choice.eq_of_onGo found
      rw [pc_goto_self]
      exact reserving_resume reserving ensures
  | ret | unwinding =>
      rw [about] at running
      cases running
  | _ =>
      rw [about] at reserving
      exact reserving.elim

/-- The reservation goes on while its call lasts, whatever the others do; by induction on the
run.
-/
theorem reserving_of_run (start : Relation.ReflTransGen (ProvidedNext dbg) (.withKey T K V E) s)
    (fits : target + 2 ^ 32 ≤ 2 ^ 64) (reserving : (s.pc t).Reserving target s)
    (call : Relation.ReflTransGen (CallNext dbg t) s s')
    : (s'.pc t).Reserving target s' := by
  induction call with
  | refl => exact reserving
  | @tail before after earlier last ih =>
      obtain ⟨running, u, choice, within, grants, found⟩ := last
      have run : Relation.ReflTransGen (GrantedStep dbg) (.withKey T K V E) before :=
        Relation.ReflTransGen.mono (fun _ _ => ProvidedNext.granted) _ _
          (start.trans (Relation.ReflTransGen.mono (fun _ _ next => next.2) _ _ earlier))
      obtain ⟨claimed, wellFormed⟩ := Claimed.withKey.of_granted .withKey run
      have moves := step_moves found
      by_cases self : t = u
      · subst self
        exact reserving_step claimed wellFormed.len fits running ih found
      · rw [moves.others t self]
        exact reserving_mono ih (moves.len_le within) fun chunk =>
          present_of_run (.single ⟨u, choice, found⟩)

end Sys

open Sys in
/-- An activity that reserves loads the number of elements; if its call returns, then there is
capacity for these and the additional ones, in every later state, whatever all other activities do
during the call and after it. Allocations are granted, and the sum is not among the last 2^32
numbers of a `usize`.
-/
theorem reserve_covers_among_others [DecidableEq T] [Fintype T] {dbg : Bool}
    {s counted returning s' : Sys T K V E} {t : T} {additional : Nat}
    (start : Relation.ReflTransGen (ProvidedNext dbg) (.withKey T K V E) s)
    (about : s.pc t = .reserveLen additional)
    (fits : s.numElems + additional + 2 ^ 32 ≤ 2 ^ 64)
    (loads : step dbg s t .go = some counted)
    (call : Relation.ReflTransGen (CallNext dbg t) counted returning)
    (returns : returning.pc t = .ret .done)
    (later : Relation.ReflTransGen (Step dbg) returning s')
    : s.numElems + additional ≤ s'.capacity := by
  have within : s.Within t := by
    constructor <;> simp [about]
  have first : ProvidedNext dbg s counted := ⟨t, .go, within, grants_of_supplies s t rfl, loads⟩
  have reserving : (counted.pc t).Reserving (s.numElems + additional) counted := by
    simp only [step, about, addUsize_of_fits (show s.numElems + additional < 2 ^ 64 by omega)]
      at loads
    cases Choice.eq_of_onGo loads
    rw [pc_goto_self]
    exact rfl
  have reserved := reserving_of_run (start.tail first) fits reserving call
  rw [returns] at reserved
  obtain ⟨chunks, bounded, enough, present⟩ := reserved.mono fun chunk => present_of_run later
  exact Nat.le_trans enough (capacityBelow_le_capacity bounded present)

open Sys in
/-- A schedule of allowed steps that leave an activity in its call. -/
theorem callNext_of_runIf [DecidableEq T] [Fintype T] {dbg : Bool} {s s' : Sys T K V E} {t : T}
    {schedule : List (T × Choice K V E)}
    (found : runIf (fun s u => s.within? u && !(s.pc t).ended) dbg s schedule = some s')
    (supplies : schedule.all (·.2.supplies) = true)
    : Relation.ReflTransGen (CallNext dbg t) s s' := by
  refine Relation.ReflTransGen.mono ?_ _ _ (suppliedSteps_of_runIf found supplies)
  rintro before after ⟨u, choice, checked, supplied, step⟩
  simp only [Bool.and_eq_true, Bool.not_eq_true'] at checked
  exact ⟨checked.2, u, choice, within_of_within? checked.1, grants_of_supplies before u supplied,
    step⟩

/-- One activity has inserted a value when another asks for 40 more. -/
def askAfterInserting : List (Bool × Choice UInt64 Nat Empty) :=
  Sys.turns true (
    [.call .tryInsertWithKey, .go, .go, .go, .go, .go, .closureOk 7] ++ List.replicate 6 .go)
  ++ [(false, .call (.reserve 40))]

/-- While it reserves the other one goes on to push. -/
def pushWhileReserving : List (Bool × Choice UInt64 Nat Empty) :=
  Sys.turns true [.call .tryInsertWithKey, .go, .go] ++ Sys.turns false (List.replicate 6 .go)

open Sys in
/-- After that run there is room for 41 elements. -/
theorem reserve_covers_among_others_pushWhileReserving
    : ∃ s s' : Sys Bool UInt64 Nat Empty,
        Relation.ReflTransGen (ProvidedNext false) (.withKey Bool UInt64 Nat Empty) s
        ∧ s.pc false = .reserveLen 40
        ∧ s.numElems = 1
        ∧ Relation.ReflTransGen (Step false) s s'
        ∧ s'.pc false = .ret .done
        ∧ s'.len = 2
        ∧ 1 + 40 ≤ s'.capacity := by
  have found : (Sys.run false (.withKey Bool UInt64 Nat Empty) askAfterInserting).map
      (fun s => (s.pc false, s.numElems, (step false s false .go).bind fun counted =>
        (runIf (fun s u => s.within? u && !(s.pc false).ended) false counted
          pushWhileReserving).map fun s' => (s'.pc false, s'.len)))
      = some (.reserveLen 40, 1, some (.ret .done, 2)) := by
    rfl
  obtain ⟨s, reached, after⟩ := Option.map_eq_some_iff.mp found
  simp only [Prod.mk.injEq] at after
  obtain ⟨about, counter, after⟩ := after
  obtain ⟨counted, loads, after⟩ := Option.bind_eq_some_iff.mp after
  obtain ⟨s', runs, after⟩ := Option.map_eq_some_iff.mp after
  simp only [Prod.mk.injEq] at after
  obtain ⟨returns, len⟩ := after
  have start : Relation.ReflTransGen (ProvidedNext false) (.withKey Bool UInt64 Nat Empty) s := by
    refine Relation.ReflTransGen.mono ?_ _ _ (suppliedNext_of_run reached (by decide +kernel))
    rintro before after ⟨t, choice, within, supplies, step⟩
    exact ⟨t, choice, within, grants_of_supplies before t supplies, step⟩
  have call := callNext_of_runIf runs (by decide +kernel)
  have covers := reserve_covers_among_others start about (by omega) loads call returns .refl
  rw [counter] at covers
  refine ⟨s, s', start, about, counter, .head ⟨false, .go, loads⟩ ?_, returns, len, covers⟩
  refine Relation.ReflTransGen.mono ?_ _ _ call
  rintro before after ⟨_, t, choice, _, _, step⟩
  exact ⟨t, choice, step⟩

end AtomicSlotMap
