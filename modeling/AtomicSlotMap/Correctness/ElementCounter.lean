import AtomicSlotMap.History.Counter

/-! The element counter does not wrap below zero in a run in which nobody counts the removal
of a key while somebody else still has to count its insertion.
-/

namespace AtomicSlotMap

variable {T K V E : Type} [Key K]

/-- The `fetch_add` steps on the counter. -/
def additions (trace : List (Event T K V)) : Nat :=
  trace.countP fun
    | .counted _ _ => true
    | _ => false

/-- The `fetch_sub` steps on the counter. -/
def subtractions (trace : List (Event T K V)) : Nat :=
  trace.countP fun
    | .discounted _ _ => true
    | _ => false

/-- The tally has as many entries as there were increments, by induction on the trace. -/
theorem card_counts (trace : List (Event T K V))
    : (tally Event.counts trace).card = additions trace := by
  induction trace with
  | nil => rfl
  | cons event earlier ih =>
      rw [tally_cons, Multiset.card_add, ih, additions, additions, List.countP_cons, add_comm]
      cases event <;> rfl

/-- The tally has as many entries as there were decrements, by induction on the trace. -/
theorem card_discounts (trace : List (Event T K V))
    : (tally Event.discounts trace).card = subtractions trace := by
  induction trace with
  | nil => rfl
  | cons event earlier ih =>
      rw [tally_cons, Multiset.card_add, ih, subtractions, subtractions, List.countP_cons,
        add_comm]
      cases event <;> rfl

namespace Sys

variable [DecidableEq T] {dbg : Bool} {s s' : Sys T K V E} {t : T}

-----------------------------------------------------------------------------------------
-- Publications come before removals
-----------------------------------------------------------------------------------------

/-- Whether the current version of a slot is this odd one, as a number. -/
def hasVersion (s : Sys T K V E) (place : Nat × Nat) : Nat :=
  if (s.slots place.1).version = place.2 then 1 else 0

/-- Each key has been removed at most as often as published, and less often while its slot
has its version.
-/
def Alternates (s : Sys T K V E) : Prop :=
  ∀ place, place.2 % 2 = 1 →
    (tally Event.retires s.trace).count place + s.hasVersion place
      ≤ (tally Event.publishes s.trace).count place

omit [DecidableEq T] in
theorem Alternates.withKey : (Sys.withKey T K V E).Alternates := by
  intro place odd
  have even : ¬ 0 = place.2 := by omega
  simp [Sys.withKey, tally, hasVersion, Slot.zeroed, even]

omit [Key K] [DecidableEq T] in
theorem hasVersion_of_versions (versions : ∀ idx, (s'.slots idx).version = (s.slots idx).version)
    (place : Nat × Nat)
    : s'.hasVersion place = s.hasVersion place := by
  rw [hasVersion, versions, hasVersion]

/-- Every step keeps the order of publications and removals, by cases on what it records. -/
theorem Alternates.records (alternates : s.Alternates) (wellFormed : s.WellFormed)
    (records : s.Records t s')
    : s'.Alternates := by
  intro place odd
  have before := alternates place odd
  cases records with
  | plain events trace plain versions =>
      rw [trace, tally_append _ fun event member => (plain event member).publishes,
        tally_append _ fun event member => (plain event member).retires,
        hasVersion_of_versions versions]
      exact before
  | counted key stored about trace versions =>
      rw [trace, tally_cons, tally_cons, hasVersion_of_versions versions]
      simpa [Event.retires, Event.publishes] using before
  | discounted key about trace versions =>
      rw [trace, tally_cons, tally_cons, hasVersion_of_versions versions]
      simpa [Event.retires, Event.publishes] using before
  | published idx version stored about reached =>
      have fits := wellFormed.locals t
      rw [about] at fits
      obtain ⟨small, bound, occupied⟩ := fits
      have named : KeyData.place (KeyData.new idx version : K) = (idx, version) := by
        rw [KeyData.place, KeyData.idx_new small bound occupied,
          KeyData.version_new small bound occupied]
      subst s'
      rw [trace_publish, tally_cons, tally_cons, hasVersion, slots_publish]
      simp only [Event.retires, Event.publishes, zero_add, Multiset.count_add, named]
      by_cases here : place = (idx, version)
      · subst place
        rw [Multiset.count_singleton_self, Function.update_self, if_pos rfl]
        omega
      · rw [Multiset.count_singleton, if_neg here, zero_add]
        by_cases same : place.1 = idx
        · -- the slot has a new version, which is not that of the place
          have other : version ≠ place.2 := fun equal => here (Prod.ext same equal.symm)
          rw [same, Function.update_self, if_neg other]
          omega
        · rw [Function.update_of_ne same]
          exact before
  | retired key version about same reached =>
      have fits := wellFormed.locals t
      rw [about] at fits
      have isVersion : version = KeyData.version key := fits
      subst s'
      rw [trace_removeExchange s t same, tally_cons, tally_cons, hasVersion,
        slots_removeExchange s t same]
      simp only [Event.retires, Event.publishes, zero_add, Multiset.count_add]
      by_cases here : place = KeyData.place key
      · subst place
        have moved : wrappingAdd version 1 ≠ KeyData.version key := by
          have odd := KeyData.version_odd key
          simp only [wrappingAdd]
          omega
        have held : s.hasVersion (KeyData.place key) = 1 := if_pos (same.trans isVersion)
        rw [held] at before
        rw [Multiset.count_singleton_self]
        simp only [KeyData.place, Function.update_self, if_neg moved] at before ⊢
        omega
      · rw [Multiset.count_singleton, if_neg here, zero_add]
        by_cases same' : place.1 = KeyData.idx key
        · have even : wrappingAdd version 1 ≠ place.2 := by
            have odd := KeyData.version_odd key
            simp only [wrappingAdd]
            omega
          rw [same', Function.update_self, if_neg even]
          omega
        · rw [Function.update_of_ne same']
          exact before

/-- Every state of a run keeps the order, by induction on the run. -/
theorem alternates_of_run [Fintype T]
    (run : Relation.ReflTransGen (Step dbg) (.withKey T K V E) s)
    : s.Alternates :=
  Library.ReflTransGen.invariant_with WellFormed run (fun _ run => wellFormed_of_run run)
    .withKey fun _ _ wellFormed _ alternates ⟨_, _, found⟩ =>
      alternates.records wellFormed (step_moves found).records

-----------------------------------------------------------------------------------------
-- Increments come before decrements
-----------------------------------------------------------------------------------------

/-- If the activity is about to count the removal of a key, then nobody still has to count an
insertion that published this key.
-/
def CountsInOrder (s : Sys T K V E) (t : T) : Prop :=
  ∀ key, s.pc t = .removeCount key → ∀ other, KeyData.place key ∉ (s.pc other).counting

variable [Fintype T]

/-- A step of the program that counts in order. -/
def OrderedStep (dbg : Bool) (s s' : Sys T K V E) : Prop :=
  ∃ t choice, s.CountsInOrder t ∧ step dbg s t choice = some s'

omit [DecidableEq T] in
/-- A removal that is about to be counted in order has a counted insertion that no earlier
decrement belongs to.
-/
theorem Alternates.discounts_lt (alternates : s.Alternates) (tallied : s.Tallied) {key : K}
    (about : s.pc t = .removeCount key) (ordered : s.CountsInOrder t)
    : (tally Event.discounts s.trace).count (KeyData.place key)
      < (tally Event.counts s.trace).count (KeyData.place key) := by
  obtain ⟨lost, balance, _⟩ := tallied.discounting
  have removed := alternates (KeyData.place key) (KeyData.version_odd key)
  have inserted := congrArg (Multiset.count (KeyData.place key)) tallied.counting
  have retired := congrArg (Multiset.count (KeyData.place key)) balance
  have pending : (s.pc t).discounting.count (KeyData.place key)
      ≤ ∑ other, (s.pc other).discounting.count (KeyData.place key) :=
    Finset.single_le_sum
      (fun other _ => Nat.zero_le ((s.pc other).discounting.count (KeyData.place key)))
      (Finset.mem_univ t)
  have mine : (s.pc t).discounting.count (KeyData.place key) = 1 := by
    rw [about]
    exact Multiset.count_singleton_self _
  have nobody : ∑ other, (s.pc other).counting.count (KeyData.place key) = 0 :=
    Finset.sum_eq_zero fun other _ => Multiset.count_eq_zero_of_notMem (ordered key about other)
  rw [Multiset.count_add, Multiset.count_sum', nobody] at inserted
  rw [Multiset.count_add, Multiset.count_add, Multiset.count_sum'] at retired
  omega

/-- A step that counts in order keeps the decrements below the increments, key by key; by cases
on what it records.
-/
theorem Records.discounts_le (records : s.Records t s') (ordered : s.CountsInOrder t)
    (alternates : s.Alternates) (tallied : s.Tallied)
    (below : tally Event.discounts s.trace ≤ tally Event.counts s.trace)
    : tally Event.discounts s'.trace ≤ tally Event.counts s'.trace := by
  cases records with
  | plain events trace plain versions =>
      rw [trace, tally_append _ fun event member => (plain event member).discounts,
        tally_append _ fun event member => (plain event member).counts]
      exact below
  | published idx version stored about reached =>
      rw [reached, trace_publish, tally_cons, tally_cons]
      simpa [Event.discounts, Event.counts] using below
  | retired key current about same reached =>
      rw [reached, trace_removeExchange s t same, tally_cons, tally_cons]
      simpa [Event.discounts, Event.counts] using below
  | counted key stored about trace versions =>
      rw [trace, tally_cons, tally_cons]
      simp only [Event.discounts, Event.counts, zero_add]
      exact below.trans (Multiset.le_add_left _ _)
  | discounted key about trace versions =>
      have less := alternates.discounts_lt tallied about ordered
      rw [trace, tally_cons, tally_cons]
      simp only [Event.discounts, Event.counts, zero_add]
      apply Multiset.le_iff_count.mpr
      intro place
      rw [Multiset.count_add, Multiset.count_singleton]
      split
      · next same =>
        subst place
        omega
      · rw [zero_add]
        exact Multiset.le_iff_count.mp below place

theorem run_of_ordered
    (run : Relation.ReflTransGen (OrderedStep dbg) (.withKey T K V E) s)
    : Relation.ReflTransGen (Step dbg) (.withKey T K V E) s :=
  Relation.ReflTransGen.mono (fun _ _ ⟨t, choice, _, found⟩ => ⟨t, choice, found⟩) _ _ run

/-- In every run that counts in order the decrements stay below the increments, key by key; by
induction on the run.
-/
theorem discounts_le_of_run
    (run : Relation.ReflTransGen (OrderedStep dbg) (.withKey T K V E) s)
    : tally Event.discounts s.trace ≤ tally Event.counts s.trace := by
  induction run with
  | refl => exact Multiset.zero_le _
  | tail earlier last ih =>
      obtain ⟨t, choice, ordered, found⟩ := last
      have run := run_of_ordered earlier
      exact (step_moves found).records.discounts_le ordered (alternates_of_run run)
        (tallied_of_run run) ih

end Sys

open Sys in
/-- In every run of any number of activities whose steps count in order, at every point the
decrements of the counter are at most its increments, and the word that `lossy_len` and
`reserve` load is their difference: it has not wrapped below zero.
-/
theorem counter_never_wraps [DecidableEq T] [Fintype T] {dbg : Bool} {s : Sys T K V E}
    (run : Relation.ReflTransGen (OrderedStep dbg) (.withKey T K V E) s)
    : subtractions s.trace ≤ additions s.trace
      ∧ s.numElems = (additions s.trace - subtractions s.trace) % 2 ^ 32 := by
  have below := Multiset.card_le_card (discounts_le_of_run run)
  have tallied := tallied_of_run (run_of_ordered run)
  have elements := tallied.elements
  have word := tallied.word
  rw [card_counts, card_discounts] at elements below
  exact ⟨below, by omega⟩

/-- A single activity inserts a value and removes it. -/
def insertAndRemove : List (Unit × Choice UInt64 Nat Empty) :=
  Sys.turns () (
    [.call .tryInsertWithKey, .go, .go, .go, .go, .go, .closureOk 7]
    ++ List.replicate 8 .go
    ++ .call (.remove ((1 : UInt64) <<< 32)) :: List.replicate 14 .go)

open Sys in
/-- That run counts in order, since the only activity counts one thing at a time. -/
theorem counter_never_wraps_insertAndRemove
    : ∃ s : Sys Unit UInt64 Nat Empty,
        additions s.trace = 1
        ∧ subtractions s.trace = 1
        ∧ subtractions s.trace ≤ additions s.trace
        ∧ s.numElems = (additions s.trace - subtractions s.trace) % 2 ^ 32 := by
  have found : (Sys.run true (.withKey Unit UInt64 Nat Empty) insertAndRemove).map
      (fun s => (additions s.trace, subtractions s.trace)) = some (1, 1) := by decide +kernel
  obtain ⟨s, reached, after⟩ := Option.map_eq_some_iff.mp found
  simp only [Prod.mk.injEq] at after
  have ordered (before after : Sys Unit UInt64 Nat Empty) (next : Next true before after) :
      OrderedStep true before after := by
    obtain ⟨t, choice, _, found⟩ := next
    refine ⟨t, choice, fun key about other => ?_, found⟩
    rw [about]
    exact Multiset.notMem_zero _
  have run := Relation.ReflTransGen.mono ordered _ _ (next_of_run reached)
  exact ⟨s, after.1, after.2, counter_never_wraps run⟩

/-- An insertion is interrupted before it counts, and another activity removes the element,
which it found through the key that the closure got, and asks for the length.
-/
def removeBeforeCount : List (Bool × Choice UInt64 Nat Empty) :=
  Sys.turns false (
    [.call .tryInsertWithKey, .go, .go, .go, .go, .go, .closureOk 7] ++ List.replicate 6 .go)
  ++ Sys.turns true (
    .call (.remove ((1 : UInt64) <<< 32)) :: List.replicate 14 .go
    ++ .call .lossyLen :: List.replicate 2 .go)

open Sys in
/-- After that run the counter has been decremented once and not incremented, and `lossy_len`
has returned `u32::MAX`.
-/
theorem counter_wraps
    : ∃ s : Sys Bool UInt64 Nat Empty,
        Reachable true s
        ∧ additions s.trace < subtractions s.trace
        ∧ s.numElems = 2 ^ 32 - 1
        ∧ .ret 2 (.len (2 ^ 32 - 1)) ∈ s.history := by
  have found : (Sys.run true (.withKey Bool UInt64 Nat Empty) removeBeforeCount).map
      (fun s => (additions s.trace, subtractions s.trace, s.numElems,
        decide (.ret 2 (.len (2 ^ 32 - 1)) ∈ s.history)))
      = some (0, 1, 2 ^ 32 - 1, true) := by decide +kernel
  obtain ⟨s, reached, after⟩ := Option.map_eq_some_iff.mp found
  simp only [Prod.mk.injEq, decide_eq_true_eq] at after
  obtain ⟨added, subtracted, wrapped, returned⟩ := after
  exact ⟨s, .of_run reached, by omega, wrapped, returned⟩

end AtomicSlotMap
