import AtomicSlotMap.Correctness.CapacityPromise
import AtomicSlotMap.Correctness.ChunkOrder
import AtomicSlotMap.Correctness.SequentialMap
import AtomicSlotMap.Specification.SharedReference

/-! When many threads share the map every call, on the map or on a guard, is linearizable: it
answers what the shared reference does.
-/

namespace AtomicSlotMap

variable {T K V E : Type} [Key K]

/-- An activity in the loop of `capacity` has added up the chunks before the one that it loads
next, and found them.
-/
def Pc.Scans (present : Nat → Prop) : Pc K V E → Prop
  | .waitForChunk _ next | .assertRefCount _ next | .assertVersion _ next => next.Scans present
  | .capacityLoad chunk total =>
      chunk ≤ CHUNKS ∧ total = capacityBelow chunk ∧ ∀ lower < chunk, present lower
  | _ => True

section

variable {present present' : Nat → Prop} {pc : Pc K V E}

omit [Key K] in
/-- More chunks do no harm, by induction on the waits. -/
theorem Pc.Scans.mono (scans : pc.Scans present) (more : ∀ chunk, present chunk → present' chunk)
    : pc.Scans present' := by
  induction pc with
  | waitForChunk _ _ ih | assertRefCount _ _ ih | assertVersion _ _ ih => exact ih scans
  | capacityLoad chunk total =>
      exact ⟨scans.1, scans.2.1, fun lower less => more lower (scans.2.2 lower less)⟩
  | _ => trivial

omit [Key K] in
theorem Pc.scans_exclusivelyOwned {dbg : Bool} {idx : Nat} {next : Pc K V E}
    (scans : next.Scans present)
    : (Pc.exclusivelyOwned dbg idx next).Scans present := by
  cases dbg <;> exact scans

omit [Key K] in
theorem Pc.scans_pushFreeIndex {dbg : Bool} {idx : Nat} {after : AfterPush K E}
    : (Pc.pushFreeIndex dbg idx after : Pc K V E).Scans present := by
  cases dbg <;> trivial

omit [Key K] in
theorem Pc.scans_popLoop {head updates : Nat}
    : (Pc.popLoop head updates : Pc K V E).Scans present := by
  rw [Pc.popLoop]
  split <;> trivial

omit [Key K] in
theorem Getter.scans_missed (getter : Getter) : (getter.missed : Pc K V E).Scans present := by
  cases getter <;> trivial

omit [Key K] in
theorem AfterPush.scans_resume (after : AfterPush K E)
    : (after.resume : Pc K V E).Scans present := by
  cases after with
  | missed getter => exact getter.scans_missed
  | _ => trivial

omit [Key K] in
theorem AfterEnsure.scans_resume (after : AfterEnsure)
    : (after.resume : Pc K V E).Scans present := by
  cases after with
  | pushed idx => trivial
  | reserving chunk maxChunk =>
      simp only [AfterEnsure.resume]
      split <;> trivial

omit [Key K] in
theorem Res.scans_rest (res : Res K V E) : res.rest.Scans present := by
  cases res <;> trivial

end

namespace Sys

section

variable {dbg : Bool} {s s' : Sys T K V E} {t : T} {pc pc' : Pc K V E}

/-- A move of a program counter goes through the chunks in order, by cases on the move. -/
theorem scans_goes (goes : pc.Goes dbg s pc')
    (scans : pc.Scans fun chunk => (s.chunks chunk).isSome)
    : pc'.Scans fun chunk => (s.chunks chunk).isSome := by
  cases goes with
  | arrived | unreferenced | unoccupied => exact scans
  | popLoad | popAgain => exact Pc.scans_popLoop
  | closureOk => exact Pc.scans_exclusivelyOwned trivial
  | ensurePresent chunk after => exact after.scans_resume
  | capacityNext chunk total bounded present =>
      obtain ⟨_, rfl, lower⟩ := scans
      refine ⟨bounded, (capacityBelow_succ chunk).symm, fun other less => ?_⟩
      rcases Nat.lt_succ_iff_lt_or_eq.mp less with before | rfl
      · exact lower other before
      · exact present
  | _ => trivial

/-- A step of an activity does so, by cases on where it leads. -/
theorem Leads.scans (leads : s.Leads dbg t pc)
    (scans : (s.pc t).Scans fun chunk => (s.chunks chunk).isSome)
    : pc.Scans fun chunk => (s.chunks chunk).isSome := by
  cases leads with
  | stay => exact scans
  | go pc goes => exact scans_goes goes scans
  | answered res pc answers =>
      generalize s.pc t = pc at answers
      cases answers with
      | closureErr => exact Pc.scans_pushFreeIndex
      | _ => trivial
  | popped => exact Pc.scans_exclusivelyOwned trivial
  | ensured after => exact after.scans_resume
  | recycled idx old after => exact after.scans_resume
  | dropped idx after => exact Pc.scans_pushFreeIndex
  | released idx needsDrop otherwise decrements =>
      generalize s.pc t = pc at decrements
      cases decrements <;> trivial
  | gaveUp idx needsDrop otherwise decrements =>
      generalize s.pc t = pc at decrements
      cases decrements with
      | acquire key getter => exact getter.scans_missed
      | _ => trivial
  | began op pc calls starts =>
      cases starts with
      | capacity => exact ⟨Nat.zero_le _, rfl, nofun⟩
      | _ => trivial
  | returned res => exact res.scans_rest
  | _ => trivial

end

variable [DecidableEq T] [Fintype T] {dbg : Bool} {s s' : Sys T K V E} {t : T} {free : List Nat}

/-- Everyone goes through the chunks in order, by induction on the run. -/
theorem scans_of_run (run : Relation.ReflTransGen (Step dbg) (.withKey T K V E) s) (t : T)
    : (s.pc t).Scans fun chunk => (s.chunks chunk).isSome := by
  induction run generalizing t with
  | refl => trivial
  | @tail before after _ last ih =>
      obtain ⟨u, choice, found⟩ := last
      have moves := step_moves found
      have more (chunk : Nat) (present : (before.chunks chunk).isSome) :
          (after.chunks chunk).isSome := by
        obtain ⟨buffer, there⟩ := Option.isSome_iff_exists.mp present
        exact Option.isSome_of_eq_some (moves.chunks_of_some there)
      by_cases self : t = u
      · subst self
        exact (moves.leads.scans (ih t)).mono more
      · rw [moves.others t self]
        exact (ih t).mono more

-----------------------------------------------------------------------------------------
-- The counter while updates are on the way
-----------------------------------------------------------------------------------------

end Sys

/-- An activity is about to count at most one update, by induction on the waits. -/
theorem Pc.card_pending_le (pc : Pc K V E) : pc.counting.card + pc.discounting.card ≤ 1 := by
  have after (after : AfterPush K E) : after.discounting.card ≤ 1 := by
    cases after with
    | removed key => exact Nat.le_refl 1
    | _ => exact Nat.zero_le 1
  induction pc with
  | waitForChunk _ _ ih | assertRefCount _ _ ih | assertVersion _ _ ih => exact ih
  | insertCount | removeDec | removeCount => exact Nat.le_refl 1
  | dropValue _ next | pushLoad _ next | pushStore _ _ next | pushCas _ _ next =>
      exact Nat.le_trans (Nat.le_of_eq (Nat.zero_add _)) (after next)
  | _ => exact Nat.zero_le 1

namespace Sys

variable [DecidableEq T] [Fintype T] {dbg : Bool} {s s' : Sys T K V E} {t : T} {free : List Nat}

/-- Where an activity has nothing to count itself, the counter is off the number of occupied slots
by at most one update for each of the others.
-/
theorem Tallied.numElems_within (tallied : s.Tallied) (inv : s.Inv free)
    (nothingLost : s.NothingLost) (mine : (s.pc t).counting = 0 ∧ (s.pc t).discounting = 0)
    : CountsWithin (Fintype.card T - 1) s.occupied.card s.numElems := by
  obtain ⟨lost, removed, nothing⟩ := tallied.discounting
  have published := congrArg Multiset.card inv.published_eq
  have counted := congrArg Multiset.card tallied.counting
  have discounted := congrArg Multiset.card removed
  rw [Multiset.card_add, Multiset.card_map, Multiset.card_map] at published
  rw [Multiset.card_add, Multiset.card_sum] at counted
  rw [nothing nothingLost, add_zero, Multiset.card_add, Multiset.card_sum] at discounted
  refine ⟨tallied.word, ∑ u, (s.pc u).discounting.card, ∑ u, (s.pc u).counting.card, ?_, ?_⟩
  · calc ∑ u, (s.pc u).discounting.card + ∑ u, (s.pc u).counting.card
      _ = ∑ u, ((s.pc u).counting.card + (s.pc u).discounting.card) := by
        rw [Nat.add_comm, Finset.sum_add_distrib]
      _ = ∑ u ∈ Finset.univ.erase t, ((s.pc u).counting.card + (s.pc u).discounting.card) := by
        refine (Finset.sum_erase Finset.univ ?_).symm
        rw [mine.1, mine.2]
        rfl
      _ ≤ ∑ u ∈ Finset.univ.erase t, 1 := Finset.sum_le_sum fun u _ => (s.pc u).card_pending_le
      _ = Fintype.card T - 1 := by
        rw [← Finset.card_eq_sum_ones, Finset.card_erase_of_mem (Finset.mem_univ t),
          Finset.card_univ]
  · have elements := tallied.elements
    change _ = _ + s.occupied.card at published
    omega

-----------------------------------------------------------------------------------------
-- The shared reference
-----------------------------------------------------------------------------------------

/-- A state stands for a shared reference: what it has told of the capacity is still there. -/
structure StandsForShared (s : Sys T K V E) (ref : SharedReference K V) : Prop where
  reference : s.StandsFor ref.toReference
  capacity : ref.capacity ≤ s.capacity

variable {ref : SharedReference K V} {op : Op K} {res : Res K V E}

omit [DecidableEq T] [Fintype T] in
/-- What is answered about the number of entries is off by the updates on the way, by cases on the
move.
-/
theorem answers_counts {pc pc' : Pc K V E} (answers : pc.Answers dbg s res pc')
    (serves : pc.Serves op) {slack size : Nat}
    (counter : pc = .lenLoad ∨ pc = .isEmptyLoad → CountsWithin slack size s.numElems)
    : SharedReference.Counts slack size op res := by
  cases answers with
  | lossyLen =>
      cases serves
      exact ⟨s.numElems, counter (Or.inl rfl), rfl⟩
  | lossyIsEmpty =>
      cases serves
      exact ⟨s.numElems, counter (Or.inr rfl), rfl⟩
  | nextDone currentIdx beyond =>
      cases op with
      | next => trivial
      | _ => cases serves
  | _ =>
      cases serves
      trivial

omit [DecidableEq T] [Fintype T] in
/-- What is answered about the capacity is the capacity, by cases on the move. -/
theorem answers_tells {pc pc' : Pc K V E} (answers : pc.Answers dbg s res pc')
    (serves : pc.Serves op) (scans : pc.Scans fun chunk => (s.chunks chunk).isSome)
    {capacity : Nat} (told : capacity ≤ s.capacity)
    : ∃ capacity' ≤ s.capacity, SharedReference.Tells capacity op res capacity' := by
  cases answers with
  | capacity chunk total last =>
      cases serves
      obtain ⟨bounded, rfl, present⟩ := scans
      have same := capacity_eq bounded present last
      exact ⟨capacityBelow chunk, Nat.le_of_eq same.symm, rfl, same ▸ told, chunk, bounded, rfl⟩
  | nextDone currentIdx beyond =>
      cases op with
      | next => exact ⟨capacity, told, rfl⟩
      | _ => cases serves
  | _ =>
      cases serves
      exact ⟨capacity, told, rfl⟩

omit [Fintype T] in
/-- Where a call takes effect, what it tells about the number of entries is off by the updates on
the way.
-/
theorem Takes.countsWithin (takes : s.Takes dbg t op res s') {slack size : Nat}
    (counter : s.pc t = .lenLoad ∨ s.pc t = .isEmptyLoad → CountsWithin slack size s.numElems)
    : SharedReference.Counts slack size op res := by
  cases takes with
  | answered op res pc answers serves => exact answers_counts answers serves counter
  | acquired op key getter serves =>
      cases getter with
      | get owning =>
          cases serves
          trivial
      | next currentIdx => cases op <;> cases serves; trivial
  | _ => trivial

omit [Fintype T] in
theorem Takes.tells (takes : s.Takes dbg t op res s')
    (scans : (s.pc t).Scans fun chunk => (s.chunks chunk).isSome) {capacity : Nat}
    (told : capacity ≤ s.capacity)
    : ∃ capacity' ≤ s.capacity, SharedReference.Tells capacity op res capacity' := by
  cases takes with
  | answered op res pc answers serves => exact answers_tells answers serves scans told
  | acquired op key getter serves =>
      cases getter with
      | get owning =>
          cases serves
          exact ⟨capacity, told, rfl⟩
      | next currentIdx => cases op <;> cases serves; exact ⟨capacity, told, rfl⟩
  | _ => exact ⟨capacity, told, rfl⟩

/-- Where a call takes effect, the shared reference takes the same step. -/
theorem Takes.refinesShared (takes : s.Takes dbg t op res s') (inv : s.Inv free)
    (tallied : s.Tallied) (nothingLost : s.NothingLost)
    (scans : (s.pc t).Scans fun chunk => (s.chunks chunk).isSome)
    (grown : s.capacity ≤ s'.capacity) (stands : s.StandsForShared ref)
    : ∃ ref', ref.Step (Fintype.card T - 1) op res ref' ∧ s'.StandsForShared ref' := by
  obtain ⟨map, contents, represents⟩ := takes.step inv stands.reference.contents
  obtain ⟨pinned, pins, holds⟩ := takes.pins inv stands.reference
  obtain ⟨capacity, told, tells⟩ := takes.tells scans stands.capacity
  have counts
      : SharedReference.Counts (Fintype.card T - 1) s.occupied.card op res :=
    takes.countsWithin fun about => tallied.numElems_within inv nothingLost (by
      rcases about with about | about <;> rw [about] <;> exact ⟨rfl, rfl⟩)
  rw [← stands.reference.contents.card_occupied inv] at counts
  exact ⟨⟨⟨map, pinned⟩, capacity⟩, ⟨contents, pins, counts, tells⟩,
    ⟨⟨represents, holds.1, holds.2⟩, Nat.le_trans told grown⟩⟩

omit [Fintype T] in
/-- What is lost stays lost. -/
theorem NothingLost.before (nothingLost : s'.NothingLost) (moves : s.Moves dbg t s')
    : s.NothingLost :=
  fun actor idx leaked => nothingLost actor idx (moves.records.suffix.subset leaked)

/-- All calls act as those of the shared reference, by induction on the run. -/
theorem Reachable.refinesShared (reachable : Reachable dbg s) (nothingLost : s.NothingLost)
    : ∃ ref,
        Library.Behaves (SharedReference.Step (Fintype.card T - 1)) .empty
          (Library.effects s.history) ref
        ∧ s.StandsForShared ref := by
  induction reachable with
  | refl => exact ⟨.empty, rfl, .withKey, Nat.zero_le _⟩
  | @tail before after earlier last ih =>
      obtain ⟨t, choice, _, found⟩ := last
      have moves := step_moves found
      have nothingLost := nothingLost.before moves
      obtain ⟨ref, run, stands⟩ := ih nothingLost
      obtain ⟨free, inv⟩ := Reachable.inv earlier
      have steps := Reachable.run earlier
      have grown : before.capacity ≤ after.capacity :=
        capacity_mono fun chunk => present_of_run (.single ⟨t, choice, found⟩)
      rcases inv.takes (tracked_of_run steps) moves with silent | ⟨id, op, res, _, effects, takes⟩
      · exact ⟨ref, silent.effects ▸ run,
          stands.reference.silent silent, Nat.le_trans stands.capacity grown⟩
      · obtain ⟨ref', step, stands'⟩ := takes.refinesShared inv (tallied_of_run steps) nothingLost
          (scans_of_run steps t) grown stands
        exact ⟨ref', effects ▸ run.concat step, stands'⟩

end Sys

open Sys in
/-- Every history of calls on the map and on its guards is linearizable, unless a call has unwound
with a slot: the order in which calls take effect has every call that returned, keeps the real-time
order, and gives each the result it has on the shared reference, which the state then stands for. A
guard reads the value it was made with and so do its clones, whoever removes the key; capacities
never decrease; and a number of entries is off by at most one update of each other activity.
-/
theorem all_calls_linearizable [DecidableEq T] [Fintype T] {dbg : Bool} {s : Sys T K V E}
    (reachable : Reachable dbg s) (nothingLost : s.NothingLost)
    : ∃ order ref,
        Library.Linearization (SharedReference.Step (Fintype.card T - 1)) .empty s.history order
        ∧ Library.Behaves (SharedReference.Step (Fintype.card T - 1)) .empty order ref
        ∧ s.StandsForShared ref := by
  obtain ⟨ref, run, stands⟩ := reachable.refinesShared nothingLost
  exact ⟨_, ref, (tracked_of_run reachable.run).recorded.linearization run, run, stands⟩

/-- While an insertion has yet to count its value, another activity takes a guard on the value, asks
for the number of entries and for the capacity, and reads the guard.
-/
def countWhileInserting : List (Bool × Choice UInt64 Nat Empty) :=
  Sys.turns false (
    [.call .tryInsertWithKey, .go, .go, .go, .go, .go, .closureOk 7] ++ List.replicate 4 .go)
  ++ Sys.turns true (
    .call (.get 0x1_0000_0000 true) :: List.replicate 6 .go
    ++ [.call .lossyLen, .go, .go, .call .capacity, .go, .go, .go, .call (.derefGuard 0), .go])

open Sys in
/-- There the map with one value is said to be empty, which the update on the way explains. -/
theorem all_calls_linearizable_countWhileInserting
    : ∃ (s : Sys Bool UInt64 Nat Empty) (order : _) (ref : _),
        .ret 2 (.len 0) ∈ s.history
        ∧ .ret 3 (.capacity 32) ∈ s.history
        ∧ .ret 4 (.read (some ⟨3, 7⟩)) ∈ s.history
        ∧ Library.Linearization (SharedReference.Step 1) .empty s.history order
        ∧ Library.Behaves (SharedReference.Step 1) .empty order ref
        ∧ s.StandsForShared ref := by
  have found : (Sys.runIf (fun s t => s.within? t && s.calm?) false
      (.withKey Bool UInt64 Nat Empty) countWhileInserting).map
      (fun s => (s.calm?, decide (.ret 2 (.len 0) ∈ s.history),
        decide (.ret 3 (.capacity 32) ∈ s.history),
        decide (.ret 4 (.read (some ⟨3, 7⟩)) ∈ s.history)))
      = some (true, true, true, true) := by decide +kernel
  obtain ⟨s, reached, after⟩ := Option.map_eq_some_iff.mp found
  simp only [Prod.mk.injEq, decide_eq_true_eq] at after
  obtain ⟨calm, len, capacity, read⟩ := after
  have calm := Calm.of_run reached calm
  obtain ⟨order, ref, explains⟩ := all_calls_linearizable calm.reachable calm.nothingLost
  exact ⟨s, order, ref, len, capacity, read, explains⟩

end AtomicSlotMap
