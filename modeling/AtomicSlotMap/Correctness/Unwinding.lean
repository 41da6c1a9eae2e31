import AtomicSlotMap.History.Counter
import AtomicSlotMap.Correctness.GuardSafety

/-! Panics of user code. The closure of an insertion and the destructors of values run while
their call holds a slot, and unwinding does not put that slot back.
-/

namespace AtomicSlotMap

variable {T K V E : Type} [Key K]

/-- Nothing can happen to a lost slot, by cases on the event. -/
theorem Phase.not_allows_of_lost {length : Nat} {event : Event T K V} {idx : Nat}
    (about : event.slot = some idx)
    : ¬ (Phase.lost : Phase T K V).Allows length event := by
  intro allowed
  cases event with
  | pushed | popped => cases allowed
  | recycled | leaked => rcases allowed with held | emptied <;> contradiction
  | wrote => cases allowed.1
  | published => cases allowed
  | armed =>
      obtain ⟨_, filled⟩ := allowed
      cases filled
  | retired =>
      obtain ⟨_, _, live, _⟩ := allowed
      cases live
  | gaveUp => exact allowed
  | released =>
      obtain ⟨_, _, _, retired, _⟩ := allowed
      cases retired
  | dropped =>
      obtain ⟨_, _, dropping, _⟩ := allowed
      cases dropping
  | counted | discounted | allocated | installed | deallocated => cases about

/-- A slot that was given up in a lawful trace is lost, by induction on the trace. -/
theorem Lawful.lost_of_leaked [DecidableEq T] {trace : List (Event T K V)}
    (lawful : Lawful trace) {actor : T} {idx : Nat} (leaked : .leaked actor idx ∈ trace)
    : phaseOf trace idx = .lost := by
  induction trace with
  | nil => cases leaked
  | cons event earlier ih =>
      obtain ⟨allowed, lawful⟩ := lawful
      rcases List.mem_cons.mp leaked with rfl | before
      · rw [phaseOf_cons rfl, Function.update_self]
        rfl
      · have lost := ih lawful before
        rw [phaseOf, if_neg, lost]
        intro about
        exact Phase.not_allows_of_lost about (lost ▸ allowed idx about)

namespace Sys

/-- What should hold once nothing is going on: the counter is the number of slots with an odd
version, and the other slots without references are on the free list.
-/
def Consistent (s : Sys T K V E) : Prop :=
  s.numElems = s.occupied.card
  ∧ ∀ free, s.FreeList free →
      ∀ idx < s.len, (s.slots idx).version % 2 = 0 → (s.slots idx).refCount = 0 → idx ∈ free

variable [DecidableEq T] [Fintype T] {dbg : Bool} {s s' s'' : Sys T K V E} {t : T}
  {free : List Nat}

/-- A lost slot of the vector is free and unreferenced but not on the free list. -/
theorem Inv.lost (inv : s.Inv free) {actor : T} {idx : Nat}
    (leaked : .leaked actor idx ∈ s.trace)
    : idx < s.len
      ∧ (s.slots idx).version % 2 = 0
      ∧ (s.slots idx).refCount = 0
      ∧ ∀ free, s.FreeList free → idx ∉ free := by
  have lost : (s.view free).phase idx = .lost := inv.owned.lawful.lost_of_leaked leaked
  have fits := inv.owned.slots idx
  rw [lost] at fits
  refine ⟨inv.owned.lt_len (by simp [lost]), fits.1, fits.2.1, fun listed list member => ?_⟩
  rw [list.unique inv.chain] at member
  cases lost.symm.trans ((inv.owned.free idx).mp member)

/-- A run only adds to the trace, by induction on the run. -/
theorem trace_suffix_of_run (run : Relation.ReflTransGen (Next dbg) s s')
    : s.trace <:+ s'.trace := by
  induction run with
  | refl => exact List.suffix_rfl
  | tail _ last ih =>
      obtain ⟨_, _, _, found⟩ := last
      exact ih.trans (step_moves found).records.suffix

/-- User code that panics leaves its call with the slot that it holds. -/
theorem leaked_of_panic (panics : step dbg s t .panic = some s')
    : ∃ idx, (s.pc t).holds = some idx ∧ .leaked t idx ∈ s'.trace := by
  cases about : s.pc t with
  | closure idx version =>
      simp only [step, about] at panics
      cases panics
      refine ⟨idx, rfl, ?_⟩
      simp only [unwind, about, Pc.holds]
      exact List.mem_cons_self
  | dropValue idx after =>
      simp only [step, about] at panics
      cases panics
      refine ⟨idx, rfl, ?_⟩
      have staying : (s.dropInnerValue t idx).pc t = .dropValue idx after := about
      simp only [unwind, staying, Pc.holds]
      exact List.mem_cons_self
  | _ =>
      simp only [step, about] at panics
      cases panics

/-- Where user code panics no limit of a word is at stake. -/
theorem within_of_panic (panics : step dbg s t .panic = some s') : s.Within t := by
  obtain ⟨idx, holds, _⟩ := leaked_of_panic panics
  refine ⟨fun _ _ _ about _ => ?_, fun about => ?_, fun _ about => ?_⟩
  all_goals
    rw [about] at holds
    cases holds

end Sys

open Sys in
/-- In every reachable state in which user code panics, be it the closure of an insertion or a
destructor run by a remove, a guard drop or a failing get, the call loses the slot that it
holds: in every later state that slot has an even version and no references and is not on
the free list, so the map is never consistent again.
-/
theorem unwinding_loses_slot [DecidableEq T] [Fintype T] {dbg : Bool} {s s' : Sys T K V E}
    {t : T} (reachable : Reachable dbg s) (panics : step dbg s t .panic = some s')
    : ∃ idx,
        (s.pc t).holds = some idx
        ∧ ∀ s'', Relation.ReflTransGen (Next dbg) s' s'' →
            idx < s''.len
            ∧ (s''.slots idx).version % 2 = 0
            ∧ (s''.slots idx).refCount = 0
            ∧ (∀ free, s''.FreeList free → idx ∉ free)
            ∧ ¬ s''.Consistent := by
  obtain ⟨idx, holds, leaked⟩ := leaked_of_panic panics
  refine ⟨idx, holds, fun s'' run => ?_⟩
  have unwound : Next dbg s s' := ⟨t, .panic, within_of_panic panics, panics⟩
  obtain ⟨free, inv⟩ := Reachable.inv ((reachable.tail unwound).trans run)
  obtain ⟨within, even, zero, unlisted⟩ :=
    inv.lost ((trace_suffix_of_run run).subset leaked)
  refine ⟨within, even, zero, unlisted, fun consistent => ?_⟩
  exact unlisted free inv.chain (consistent.2 free inv.chain idx within even zero)

/-- A single activity inserts with a closure that panics, up to the closure. -/
def insertUntilClosure : List (Unit × Choice UInt64 Nat Empty) :=
  Sys.turns () [.call .tryInsertWithKey, .go, .go, .go, .go, .go]

open Sys in
/-- The panic of that closure loses slot 0 for good. -/
theorem unwinding_loses_slot_insertUntilClosure
    : ∃ s s' : Sys Unit UInt64 Nat Empty,
        step true s () .panic = some s'
        ∧ (s.pc ()).holds = some 0
        ∧ ∀ s'', Relation.ReflTransGen (Next true) s' s'' → ¬ s''.Consistent := by
  have found : ((Sys.run true (.withKey Unit UInt64 Nat Empty) insertUntilClosure).map
      fun s => ((s.pc ()).holds, (step true s () .panic).isSome)) = some (some 0, true) := by
    decide +kernel
  obtain ⟨s, reached, after⟩ := Option.map_eq_some_iff.mp found
  simp only [Prod.mk.injEq] at after
  obtain ⟨s', panics⟩ := Option.isSome_iff_exists.mp after.2
  obtain ⟨idx, holds, forever⟩ := unwinding_loses_slot (Reachable.of_run reached) panics
  exact ⟨s, s', panics, after.1, fun s'' run => (forever s'' run).2.2.2.2⟩

/-- A single activity removes a value whose destructor panics, after inserting it. -/
def removeWithPanic : List (Unit × Choice UInt64 Nat Empty) :=
  Sys.turns () (
    [.call .tryInsertWithKey, .go, .go, .go, .go, .go, .closureOk 7]
    ++ List.replicate 8 .go
    ++ .call (.remove ((1 : UInt64) <<< 32)) :: List.replicate 5 .go
    ++ [.panic, .go])

open Sys in
/-- After an insertion whose closure panicked has unwound, slot 0 is free but not on the free
list; after a remove whose destructor panicked has unwound, the empty map counts one element.
-/
theorem unwinding_inconsistent
    : (∃ s : Sys Unit UInt64 Nat Empty,
        Reachable true s ∧ .unwound 0 ∈ s.history ∧ s.FreeList [] ∧ ¬ s.Consistent)
      ∧ ∃ s : Sys Unit UInt64 Nat Empty,
          Reachable true s ∧ .unwound 1 ∈ s.history ∧ s.numElems = 1 ∧ s.occupied.card = 0
          ∧ ¬ s.Consistent := by
  constructor
  · have found : ((Sys.run true (.withKey Unit UInt64 Nat Empty)
        (insertUntilClosure ++ Sys.turns () [.panic, .go])).map fun s =>
          (decide (.unwound 0 ∈ s.history), (unpackFreeHead s.freeHead).2, s.len,
            (s.slots 0).version, (s.slots 0).refCount))
        = some (true, SENTINEL, 1, 0, 0) := by decide +kernel
    obtain ⟨s, reached, after⟩ := Option.map_eq_some_iff.mp found
    simp only [Prod.mk.injEq, decide_eq_true_eq] at after
    obtain ⟨unwound, list, len, version, refCount⟩ := after
    refine ⟨s, .of_run reached, unwound, list, fun consistent => ?_⟩
    exact List.not_mem_nil (consistent.2 [] list 0 (by omega) (by omega) refCount)
  · have found : ((Sys.run true (.withKey Unit UInt64 Nat Empty) removeWithPanic).map fun s =>
          (decide (.unwound 1 ∈ s.history), s.numElems, s.occupied.card))
        = some (true, 1, 0) := by decide +kernel
    obtain ⟨s, reached, after⟩ := Option.map_eq_some_iff.mp found
    simp only [Prod.mk.injEq, decide_eq_true_eq] at after
    obtain ⟨unwound, counted, occupied⟩ := after
    refine ⟨s, .of_run reached, unwound, counted, occupied, fun consistent => ?_⟩
    have same := consistent.1
    omega

end AtomicSlotMap
