import AtomicSlotMap.History.Counter
import AtomicSlotMap.History.Solo
import AtomicSlotMap.Implementation.Turns

/-! What `reserve` promises. It panics rather than reserve too little, unless the first of its
`usize` additions wraps.
-/

namespace AtomicSlotMap

variable {T K V E : Type} [Key K]

namespace Sys

/-- What `capacity` adds up: the sizes of the chunks before the first missing one. -/
def capacity (s : Sys T K V E) : Nat :=
  ∑ chunk ∈ Finset.range CHUNKS with ∀ lower ≤ chunk, (s.chunks lower).isSome,
    chunkCapacity chunk

variable {s s' : Sys T K V E}

omit [Key K] in
theorem capacity_congr (chunks : s'.chunks = s.chunks) : s'.capacity = s.capacity := by
  rw [capacity, chunks, capacity]

omit [Key K] in
/-- The chunks before a count of them are part of the capacity. -/
theorem capacityBelow_le_capacity {count : Nat} (bounded : count ≤ CHUNKS)
    (present : ∀ lower < count, (s.chunks lower).isSome)
    : capacityBelow count ≤ s.capacity := by
  refine Finset.sum_le_sum_of_subset fun chunk member => ?_
  have within := Finset.mem_range.mp member
  refine Finset.mem_filter.mpr ⟨Finset.mem_range.mpr (by omega), fun lower most => ?_⟩
  exact present lower (by omega)

omit [Key K] in
/-- The capacity ends at the first missing chunk. -/
theorem capacity_eq {count : Nat} (bounded : count ≤ CHUNKS)
    (present : ∀ lower < count, (s.chunks lower).isSome)
    (last : count < CHUNKS → s.chunks count = none)
    : s.capacity = capacityBelow count := by
  refine Nat.le_antisymm ?_ (capacityBelow_le_capacity bounded present)
  refine Finset.sum_le_sum_of_subset fun chunk member => ?_
  obtain ⟨within, all⟩ := Finset.mem_filter.mp member
  refine Finset.mem_range.mpr ?_
  by_contra beyond
  have within := Finset.mem_range.mp within
  have missing := last (by omega)
  have found := all count (by omega)
  rw [missing] at found
  cases found

variable [DecidableEq T] [Fintype T] {dbg : Bool} {t : T}

/-- The loop of `capacity` ends at the first missing chunk. -/
theorem eventually_capacity_last {chunk : Nat}
    (about : s.pc t = .capacityLoad chunk (capacityBelow chunk)) (bounded : chunk ≤ CHUNKS)
    (present : ∀ lower < chunk, (s.chunks lower).isSome)
    (last : ¬ (chunk < CHUNKS ∧ (s.chunks chunk).isSome))
    : Library.Eventually (Turn dbg t) (fun s' => s'.pc t = .ret (.capacity s.capacity)) s := by
  have total : s.capacity = capacityBelow chunk :=
    capacity_eq bounded present fun within => by simpa [within] using last
  refine eventually_of_go (by rw [about]; rfl) (by simp only [step, about, if_neg last]; rfl)
    (.now ?_)
  rw [pc_goto_self, total]

/-- The loop of `capacity` computes the capacity, by induction on the chunks that remain. -/
theorem eventually_capacity {rest chunk : Nat}
    (about : s.pc t = .capacityLoad chunk (capacityBelow chunk))
    (remaining : chunk + rest = CHUNKS) (present : ∀ lower < chunk, (s.chunks lower).isSome)
    : Library.Eventually (Turn dbg t) (fun s' => s'.pc t = .ret (.capacity s.capacity)) s := by
  induction rest generalizing s chunk with
  | zero => exact eventually_capacity_last about (by omega) present (by omega)
  | succ rest ih =>
      by_cases more : chunk < CHUNKS ∧ (s.chunks chunk).isSome
      · let next := s.goto t (.capacityLoad (chunk + 1) (capacityBelow (chunk + 1)))
        have found : step dbg s t .go = some next := by
          simp only [step, about, if_pos more, capacityBelow_succ, next]
          rfl
        refine eventually_of_go (by rw [about]; rfl) found ?_
        refine ih (pc_goto_self _ t _) (by omega) fun lower less => ?_
        rcases Nat.lt_succ_iff_lt_or_eq.mp less with before | rfl
        · exact present lower before
        · exact more.2
      · exact eventually_capacity_last about (by omega) present more

-----------------------------------------------------------------------------------------
-- The loop of `AtomicVec::reserve`
-----------------------------------------------------------------------------------------

/-- `ensure_chunk_exists` has returned: its chunk is in place, and all else is as it was. -/
structure Ensured (s : Sys T K V E) (t : T) (chunk : Nat) (after : AfterEnsure)
    (s' : Sys T K V E)
    : Prop where
  resumed : s'.pc t = after.resume
  present : (s'.chunks chunk).isSome
  kept : (s.chunks chunk).isSome → s'.chunks = s.chunks
  others : ∀ other ≠ chunk, s'.chunks other = s.chunks other
  words : { s with chunks := s'.chunks }.Undisturbed s'

/-- `ensure_chunk_exists` returns. -/
theorem eventually_ensure {chunk : Nat} {after : AfterEnsure}
    (about : s.pc t = .ensureLoad chunk after)
    : Library.Eventually (Turn dbg t) (s.Ensured t chunk after) s := by
  by_cases present : (s.chunks chunk).isSome
  · have found : step dbg s t .go = some (s.goto t after.resume) := by
      simp only [step, about, if_pos present]
      rfl
    refine eventually_of_go (by rw [about]; rfl) found (.now ?_)
    exact ⟨pc_goto_self _ t _, present, fun _ => rfl, fun _ _ => rfl, (Undisturbed.refl s).goto _⟩
  · let absent : Sys T K V E := s.goto t (.ensureAlloc chunk after)
    let allocated : Sys T K V E :=
      ({ absent with buffers := absent.buffers + 1 }.emit
        (.allocated t chunk absent.buffers (chunkCapacity chunk))).goto t
          (.ensureCas chunk (some absent.buffers) after)
    let installed : Sys T K V E :=
      ((allocated.setChunk chunk (some absent.buffers)).emit
        (.installed t chunk (some absent.buffers))).goto t after.resume
    have alloc : absent.pc t = .ensureAlloc chunk after := pc_goto_self _ t _
    have exchange : allocated.pc t = .ensureCas chunk (some absent.buffers) after :=
      pc_goto_self _ t _
    have first : step dbg s t .go = some absent := by
      simp only [step, about, if_neg present]
      rfl
    have second : step dbg absent t .go = some allocated := by
      simp only [step, alloc]
      rfl
    have third : step dbg allocated t .go = some installed := by
      have missing : allocated.chunks chunk = none := Option.not_isSome_iff_eq_none.mp present
      simp only [step, exchange, installChunk, if_pos missing]
      rfl
    refine eventually_of_go (by rw [about]; rfl) first ?_
    refine eventually_of_go (by rw [alloc]; rfl) second ?_
    refine eventually_of_go (by rw [exchange]; rfl) third (.now ?_)
    refine ⟨pc_goto_self _ t _, isSome_installed.mpr (Or.inl rfl), fun found => ?_,
      fun other apart => Function.update_of_ne apart _ _, ⟨rfl, rfl, rfl, rfl, rfl, rfl, ?_⟩⟩
    · exact absurd found present
    · intro actor idx data
      change .dropped actor idx data ∈ .installed t chunk _ :: .allocated t chunk _ _ :: s.trace ↔ _
      simp

/-- A call of `reserve` has returned and seen to these chunks. -/
structure Provided (s : Sys T K V E) (t : T) (needed : Nat → Prop) (s' : Sys T K V E) : Prop where
  done : s'.pc t = .ret .done
  chunks : ∀ chunk, (s'.chunks chunk).isSome ↔ (s.chunks chunk).isSome ∨ needed chunk
  len : s'.len = s.len

omit [Key K] [DecidableEq T] [Fintype T] in
theorem Ensured.chunks {chunk : Nat} {after : AfterEnsure} (ensured : s.Ensured t chunk after s')
    (other : Nat)
    : (s'.chunks other).isSome ↔ (s.chunks other).isSome ∨ other = chunk := by
  by_cases same : other = chunk
  · subst other
    exact iff_of_true ensured.present (Or.inr rfl)
  · rw [ensured.others other same, or_iff_left same]

/-- The loop of `reserve` sees to its chunks and no others, by induction on those that remain. -/
theorem eventually_provided {rest chunk : Nat}
    (about : s.pc t = .ensureLoad chunk (.reserving chunk (chunk + rest)))
    : Library.Eventually (Turn dbg t)
        (s.Provided t fun other => chunk ≤ other ∧ other ≤ chunk + rest) s := by
  induction rest generalizing s chunk with
  | zero =>
      refine (eventually_ensure about).mono fun s' ensured =>
        ⟨?_, fun other => ?_, ensured.words.len⟩
      · rw [ensured.resumed, AfterEnsure.resume, if_neg (by omega)]
      · rw [ensured.chunks, Nat.add_zero]
        exact or_congr_right ⟨fun same => by omega, fun within => by omega⟩
  | succ rest ih =>
      refine (eventually_ensure about).bind fun middle ensured => ?_
      have resumed := ensured.resumed
      have shift : chunk + 1 + rest = chunk + (rest + 1) := by omega
      rw [AfterEnsure.resume, if_pos (by omega), ← shift] at resumed
      rw [← shift]
      refine (ih resumed).mono fun s' provided => ⟨provided.done, fun other => ?_, ?_⟩
      · rw [provided.chunks, ensured.chunks, or_assoc]
        refine or_congr_right ⟨fun either => ?_, fun within => ?_⟩
        · rcases either with same | later
          · omega
          · omega
        · rcases Nat.lt_or_eq_of_le within.1 with later | same
          · exact Or.inr ⟨later, within.2⟩
          · exact Or.inl same.symm
      · exact provided.len.trans ensured.words.len

/-- `AtomicVec::reserve` has nothing to do, panics or sees to the chunk of its last index and those
below it.
-/
theorem eventually_vecReserve_cases {Goal : Sys T K V E → Prop} {additional : Nat}
    (about : s.pc t = .vecReserve additional) (fits : s.len + additional < 2 ^ 64)
    (nothing : s.len + additional = 0 → Goal (s.goto t (.ret .done)))
    (panics : 2 ^ 32 < s.len + additional → Goal (s.unwind t))
    (provides
      : s.len + additional ≠ 0 → s.len + additional ≤ 2 ^ 32 → ∀ s',
          s.Provided t (· < chunkOf (s.len + additional - 1) + 1) s' → Goal s')
    : Library.Eventually (Turn dbg t) Goal s := by
  have sum : addUsize dbg s.len additional = some (s.len + additional) := by
    have small : ¬ 2 ^ 64 ≤ s.len + additional := by omega
    simp only [addUsize, small, decide_false, Bool.and_false, Bool.false_eq_true, if_false,
      Nat.mod_eq_of_lt fits]
  have determined : (s.pc t).determined = true := by rw [about]; rfl
  by_cases none : s.len + additional = 0
  · have found : step dbg s t .go = some (s.goto t (.ret .done)) := by
      simp only [step, about, Sys.vecReserve, sum, if_pos none]
      rfl
    exact eventually_of_go determined found (.now (nothing none))
  by_cases large : 2 ^ 32 ≤ s.len + additional - 1
  · have found : step dbg s t .go = some (s.unwind t) := by
      simp only [step, about, Sys.vecReserve, sum, if_neg none, if_pos large]
      rfl
    exact eventually_of_go determined found (.now (panics (by omega)))
  let maxChunk := chunkOf (s.len + additional - 1)
  let loading : Sys T K V E := s.goto t (.ensureLoad 0 (.reserving 0 maxChunk))
  have found : step dbg s t .go = some loading := by
    simp only [step, about, Sys.vecReserve, sum, if_neg none, if_neg large]
    rfl
  have start : loading.pc t = .ensureLoad 0 (.reserving 0 (0 + maxChunk)) := by
    rw [Nat.zero_add]
    exact pc_goto_self _ t _
  refine eventually_of_go determined found ?_
  refine (eventually_provided start).mono fun s' provided => provides none (by omega) s' ?_
  refine ⟨provided.done, fun chunk => ?_, provided.len⟩
  rw [provided.chunks]
  exact or_congr_right ⟨fun within => by omega, fun within => by omega⟩

/-- The end of a call of `reserve` that asks the vector for a target capacity. -/
def Reserves (t : T) (target : Nat) (s : Sys T K V E) : Prop :=
  if 2 ^ 32 < target then s.pc t = .unwinding
  else s.pc t = .ret .done ∧ target ≤ s.capacity

omit [Key K] [DecidableEq T] [Fintype T] in
theorem Reserves.paused {target : Nat} (reserves : s.Reserves t target)
    : (s.pc t).paused = true := by
  rw [Reserves] at reserves
  split at reserves
  · rw [reserves]
    rfl
  · rw [reserves.1]
    rfl

/-- `AtomicVec::reserve` on top of the length. -/
theorem eventually_vecReserve {additional : Nat} (about : s.pc t = .vecReserve additional)
    (fits : s.len + additional < 2 ^ 64)
    : Library.Eventually (Turn false t) (Reserves t (s.len + additional)) s := by
  refine eventually_vecReserve_cases about fits (fun nothing => ?_) (fun large => ?_)
    fun positive most s' provided => ?_
  · rw [Reserves, nothing, if_neg (by omega)]
    exact ⟨pc_goto_self _ t _, Nat.zero_le _⟩
  · rw [Reserves, if_pos large]
    exact pc_unwind_self s t
  · have small : s.len + additional - 1 < 2 ^ 32 := by omega
    have housed := (chunkOf_bounds small).2
    have capacity : capacityBelow (chunkOf (s.len + additional - 1) + 1) ≤ s'.capacity :=
      capacityBelow_le_capacity (chunkOf_lt small) fun lower less =>
        (provided.chunks lower).mpr (Or.inr less)
    rw [Reserves, if_neg (by omega)]
    exact ⟨provided.done, by omega⟩

/-- `AtomicSlotMap::reserve` on top of the counter: its first sum wraps. -/
theorem eventually_reserve {additional : Nat} (about : s.pc t = .reserveLen additional)
    (bound : s.len < 2 ^ 32)
    : Library.Eventually (Turn false t)
        (Reserves t (max s.len ((s.numElems + additional) % 2 ^ 64))) s := by
  have wrapped : (s.numElems + additional) % 2 ^ 64 < 2 ^ 64 := Nat.mod_lt _ (by omega)
  let total := (s.numElems + additional) % 2 ^ 64
  let summed : Sys T K V E := s.goto t (.reserveSlots total)
  let needing : Sys T K V E := summed.goto t (.vecReserve (total - s.len))
  have load : summed.pc t = .reserveSlots total := pc_goto_self _ t _
  have first : step false s t .go = some summed := by
    simp only [step, about, addUsize, Bool.false_and, Bool.false_eq_true, if_false]
    rfl
  have second : step false summed t .go = some needing := by
    simp only [step, load]
    rfl
  have target : needing.len + (total - s.len) = max s.len total := by
    change s.len + (total - s.len) = max s.len total
    omega
  refine eventually_of_go (by rw [about]; rfl) first ?_
  refine eventually_of_go (by rw [load]; rfl) second ?_
  rw [← target]
  exact eventually_vecReserve (pc_goto_self _ t _) (by omega)

-----------------------------------------------------------------------------------------
-- The promise
-----------------------------------------------------------------------------------------

/-- `reserve(additional)` comes to an end, with a panic or with capacity for the elements and
`additional` more, and with a panic if these are more than `2 ^ 32`.
-/
def ReservePromise (dbg : Bool) (s : Sys T K V E) (t : T) (additional : Nat) : Prop :=
  ∃ called, step dbg s t (.call (.reserve additional)) = some called
    ∧ Library.Eventually (Turn dbg t)
        (fun s' =>
          (s'.pc t = .unwinding ∨ s'.pc t = .ret .done ∧ s.numElems + additional ≤ s'.capacity)
          ∧ (2 ^ 32 < s.numElems + additional → s'.pc t = .unwinding))
        called

/-- A call of `reserve` from rest asks for the larger one of the length and the wrapped sum. -/
theorem exists_reserve (run : Relation.ReflTransGen (Step false) (.withKey T K V E) s)
    (rests : s.pc t = .idle) (additional : Nat)
    : ∃ called, step false s t (.call (.reserve additional)) = some called
        ∧ Library.Eventually (Turn false t)
            (Reserves t (max s.len ((s.numElems + additional) % 2 ^ 64))) called := by
  let called : Sys T K V E :=
    ((s.begin t (.reserve additional)).answer t .done).goto t (.reserveLen additional)
  have numElems : called.numElems = s.numElems := by
    simp only [called]
    rw [answer_eq]
    rfl
  have len : called.len = s.len := by
    simp only [called]
    rw [answer_eq]
    rfl
  refine ⟨called, ?_, ?_⟩
  · simp only [step, rests]
    rfl
  · rw [← numElems, ← len]
    refine eventually_reserve (pc_goto_self _ t _) ?_
    rw [len]
    exact (wellFormed_of_run run).len

/-- A sum that does not wrap is reserved, or the call panics. -/
theorem reservePromise_of_fits (run : Relation.ReflTransGen (Step false) (.withKey T K V E) s)
    (rests : s.pc t = .idle) {additional : Nat} (fits : s.numElems + additional < 2 ^ 64)
    : s.ReservePromise false t additional := by
  obtain ⟨called, found, eventually⟩ := exists_reserve run rests additional
  refine ⟨called, found, eventually.mono fun s' reserves => ?_⟩
  rw [Nat.mod_eq_of_lt fits, Reserves] at reserves
  split at reserves
  · exact ⟨Or.inl reserves, fun _ => reserves⟩
  · exact ⟨Or.inr ⟨reserves.1, by omega⟩, fun beyond => by omega⟩

omit [Key K] [DecidableEq T] [Fintype T] in
theorem paused_of_promised {most : Prop}
    (reached : s.pc t = .unwinding ∨ s.pc t = .ret .done ∧ most)
    : (s.pc t).paused = true := by
  rcases reached with unwinding | ⟨done, _⟩
  · rw [unwinding]
    rfl
  · rw [done]
    rfl

/-- A sum that wraps is lost: `reserve` returns as if nothing more were needed. -/
theorem not_reservePromise_of_overflow
    (run : Relation.ReflTransGen (Step false) (.withKey T K V E) s) (rests : s.pc t = .idle)
    {additional : Nat} (word : additional < 2 ^ 64)
    (overflow : 2 ^ 64 ≤ s.numElems + additional)
    : ¬ s.ReservePromise false t additional := by
  rintro ⟨called, found, promised⟩
  obtain ⟨called', found', eventually⟩ := exists_reserve run rests additional
  cases found.symm.trans found'
  have counter := (tallied_of_run run).word
  have bound := (wellFormed_of_run run).len
  have small : ¬ 2 ^ 32 < max s.len ((s.numElems + additional) % 2 ^ 64) := by omega
  obtain ⟨s', run', reserves⟩ := eventually.exists_run
  have paused : ∀ after, ¬ Turn false t s' after := fun _ => not_turn_of_paused reserves.paused
  obtain ⟨_, panics⟩ := promised.of_final run'
    (fun _ _ reached => not_turn_of_paused (paused_of_promised reached.1)) paused
  rw [Reserves, if_neg small] at reserves
  have unwinding := panics (by omega)
  rw [reserves.1] at unwinding
  cases unwinding

end Sys

open Sys in
/-- In a release build, called alone from any state that a run reaches, `reserve` panics or
reserves enough exactly if the number of elements and `additional` add up to a `usize`. What
`capacity` returns is the capacity the promise speaks about.
-/
theorem reserve_promise_iff [DecidableEq T] [Fintype T] {s : Sys T K V E}
    (run : Relation.ReflTransGen (Step false) (.withKey T K V E) s) {t : T}
    (rests : s.pc t = .idle) (additional : UInt64)
    : (s.ReservePromise false t additional.toNat ↔ s.numElems + additional.toNat < 2 ^ 64)
      ∧ ∀ s' : Sys T K V E, s'.pc t = .capacityLoad 0 0 →
          Library.Eventually (Turn false t) (fun s'' => s''.pc t = .ret (.capacity s'.capacity))
            s' := by
  refine ⟨⟨fun promise => ?_, reservePromise_of_fits run rests⟩, fun s' about => ?_⟩
  · by_contra overflow
    exact not_reservePromise_of_overflow run rests additional.toNat_lt
      (Nat.le_of_not_lt overflow) promise
  · exact eventually_capacity about (Nat.zero_add CHUNKS) nofun

/-- A single activity inserts a value, in a release build. -/
def insertAlone : List (Unit × Choice UInt64 Nat Empty) :=
  Sys.turns () (
    [.call .tryInsertWithKey, .go, .go, .go, .go, .go, .closureOk 7] ++ List.replicate 6 .go)

open Sys in
/-- What that run leads to. -/
theorem exists_insertAlone
    : ∃ s : Sys Unit UInt64 Nat Empty,
        Solo false s
        ∧ s.pc () = .idle
        ∧ s.numElems = 1 := by
  have found : (Sys.runIf (fun s t => s.within? t && decide (s.Alone t) && s.calm?) false
      (.withKey Unit UInt64 Nat Empty) insertAlone).map
      (fun s => (s.calm?, (s.pc ()).idle?, s.numElems)) = some (true, true, 1) := by
    decide +kernel
  obtain ⟨s, reached, after⟩ := Option.map_eq_some_iff.mp found
  simp only [Prod.mk.injEq] at after
  obtain ⟨calm, idle, counter⟩ := after
  exact ⟨s, .of_run reached calm, Pc.eq_idle idle, counter⟩

open Sys in
/-- After that run `reserve(32)` keeps its promise. -/
theorem reserve_promise_iff_insertAlone
    : ∃ s : Sys Unit UInt64 Nat Empty,
        Solo false s
        ∧ s.ReservePromise false () (32 : UInt64).toNat := by
  obtain ⟨s, solo, rests, counter⟩ := exists_insertAlone
  refine ⟨s, solo, (reserve_promise_iff solo.steps rests 32).1.mpr ?_⟩
  rw [counter]
  decide

open Sys in
/-- A single thread that has inserted one value asks for `usize::MAX` more, and gets nothing. -/
theorem reserve_promise_broken
    : ¬ ∀ s : Sys Unit UInt64 Nat Empty, Solo false s → s.pc () = .idle →
        ∀ additional : UInt64, s.ReservePromise false () additional.toNat := by
  intro promise
  obtain ⟨s, solo, rests, counter⟩ := exists_insertAlone
  refine not_reservePromise_of_overflow solo.steps rests (UInt64.toNat_lt _) ?_
    (promise s solo rests 0xffff_ffff_ffff_ffff)
  rw [counter]
  decide

end AtomicSlotMap
