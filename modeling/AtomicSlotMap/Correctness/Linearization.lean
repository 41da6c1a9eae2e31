import AtomicSlotMap.Correctness.GuardSafety
import AtomicSlotMap.History.Closures

/-! The map is linearizable: every history of calls is explained by a total order of them in
which each returns what an abstract finite map returns.
-/

namespace AtomicSlotMap

variable {T K V E : Type} [Key K]

namespace Sys

section

variable {s s' : Sys T K V E} {map : FiniteMap V}

omit [Key K] in
/-- A slot that gets an odd version binds it to the value of the slot. -/
theorem Represents.insert (represents : s.Represents map) {idx version : Nat}
    {stored : Stored V} (slot : Slot V) (even : (s.slots idx).version % 2 = 0)
    (odd : version % 2 = 1) (current : slot.version = version)
    (data : slot.data = some stored) (slots : s'.slots = Function.update s.slots idx slot)
    : s'.Represents (map.insert (idx, version) stored) := by
  intro place
  by_cases same : place = (idx, version)
  · subst place
    rw [Finmap.lookup_insert, bound, slots, Function.update_self, if_pos ⟨current, odd⟩, data]
  · rw [Finmap.lookup_insert_of_ne _ same, represents place]
    by_cases here : place.1 = idx
    · -- the slot had an even version, so it bound nothing
      have before : ¬ ((s.slots place.1).version = place.2 ∧ place.2 % 2 = 1) := by
        rw [here]
        omega
      have after : ¬ ((s'.slots place.1).version = place.2 ∧ place.2 % 2 = 1) := by
        rw [here, slots, Function.update_self, current]
        exact fun other => same (Prod.ext here other.1.symm)
      rw [bound, bound, if_neg before, if_neg after]
    · rw [bound, bound, slots, Function.update_of_ne here]

omit [Key K] in
/-- A slot that gets an even version binds nothing. -/
theorem Represents.erase (represents : s.Represents map) {idx version : Nat} (slot : Slot V)
    (current : (s.slots idx).version = version) (even : slot.version % 2 = 0)
    (slots : s'.slots = Function.update s.slots idx slot)
    : s'.Represents (map.erase (idx, version)) := by
  have unbound (place : Nat × Nat) (here : place.1 = idx) : s'.bound place = none := by
    refine if_neg ?_
    rw [here, slots, Function.update_self]
    omega
  intro place
  by_cases same : place = (idx, version)
  · subst place
    rw [Finmap.lookup_erase, unbound _ rfl]
  · rw [Finmap.lookup_erase_ne same, represents place]
    by_cases here : place.1 = idx
    · rw [unbound place here]
      refine if_neg ?_
      rw [here, current]
      exact fun other => same (Prod.ext here other.1.symm)
    · rw [bound, bound, slots, Function.update_of_ne here]

omit [Key K] in
theorem Represents.congr (represents : s.Represents map) (same : s'.bound = s.bound)
    : s'.Represents map := by
  intro place
  rw [same]
  exact represents place

end

variable [DecidableEq T] [Fintype T] {dbg : Bool} {s s' : Sys T K V E} {t : T}
  {free : List Nat} {map : FiniteMap V} {op : Op K} {res : Res K V E}

/-- Where a call takes effect, the abstract map takes the same step. -/
theorem Takes.step (takes : s.Takes dbg t op res s') (inv : s.Inv free)
    (represents : s.Represents map)
    : ∃ map', map.Step op res map' ∧ s'.Represents map' := by
  cases takes with
  | answered op res pc answers serves =>
      exact ⟨map, answers.step inv represents serves,
        represents.congr (bound_of_slots (slots_answer s t res))⟩
  | inserted idx version stored about =>
      obtain ⟨place, stamp, even, occupied, _, data, _⟩ := inv.publishing about
      have odd : version % 2 = 1 := occupied ▸ or_one_odd _
      have pair : KeyData.place (KeyData.new idx version : K) = (idx, version) :=
        Prod.ext place stamp
      have unbound : s.bound (idx, version) = none := if_neg (by
        simp only
        omega)
      refine ⟨map.insert (idx, version) stored, ?_, ?_⟩
      · rw [← pair]
        exact .inserted _ stored (pair ▸ represents.not_mem unbound)
      · exact represents.insert { s.slots idx with version := version } even odd rfl data
          (slots_publish s t idx version stored)
  | removed key current about same =>
      have fits := inv.fits t
      rw [about] at fits
      have isVersion : current = KeyData.version key := fits
      subst isVersion
      obtain ⟨stored, _, bound⟩ := inv.bound_of_current same
      have odd := KeyData.version_odd key
      refine ⟨map.erase (KeyData.place key), .removed key (represents.mem bound), ?_⟩
      refine represents.erase
        {
          s.slots (KeyData.idx key) with
          version := wrappingAdd (KeyData.version key) 1
        } same ?_ (slots_removeExchange s t same)
      simp only [wrappingAdd]
      omega
  | acquired op key getter serves about same =>
      obtain ⟨stored, data, bound⟩ := inv.bound_of_current same
      exact ⟨map, Getter.step serves ((represents _).trans bound) rfl rfl data,
        represents.congr (bound_of_slots (slots_acquireCheck s t getter same))⟩
  | cloned guard about bounded =>
      exact ⟨map, .beside _ _ rfl,
        represents.congr (bound_of_refCount (slots_cloneGuard s t guard))⟩
  | reserving additional calls | read id guard calls found | unguarding id guard calls found
  | forgot id guard calls found =>
      exact ⟨map, .beside _ _ rfl, represents.congr (bound_of_slots (slots_answer _ t _))⟩

/-- The effects so far are a run of the abstract map, to the map that the state stands for. -/
def Explained (s : Sys T K V E) : Prop :=
  ∃ map, Library.Behaves FiniteMap.Step ∅ (Library.effects s.history) map ∧ s.Represents map

omit [DecidableEq T] [Fintype T] in
theorem Explained.withKey : (Sys.withKey T K V E).Explained := by
  refine ⟨∅, rfl, fun place => ?_⟩
  rw [Finmap.lookup_empty, bound]
  split <;> rfl

/-- Every step is explained by the abstract map. -/
theorem Explained.moves (explained : s.Explained) (inv : s.Inv free) (tracked : s.Tracked)
    (moves : s.Moves dbg t s')
    : s'.Explained := by
  obtain ⟨map, run, represents⟩ := explained
  rcases inv.takes tracked moves with silent | ⟨id, op, res, _, effects, takes⟩
  · exact ⟨map, silent.effects ▸ run, represents.congr silent.bound⟩
  · obtain ⟨map', step, represents'⟩ := takes.step inv represents
    exact ⟨map', effects ▸ run.concat step, represents'⟩

/-- Every reachable state is explained, by induction on the run. -/
theorem Reachable.explained (reachable : Reachable dbg s) : s.Explained :=
  Library.ReflTransGen.invariant_with (fun s => (∃ free, s.Inv free) ∧ s.Tracked) reachable
    (fun _ reachable => ⟨Reachable.inv reachable, tracked_of_run (Reachable.run reachable)⟩)
    .withKey
    fun _ _ ⟨⟨_, inv⟩, tracked⟩ _ explained ⟨_, _, _, found⟩ =>
      explained.moves inv tracked (step_moves found)

end Sys

open Sys in
/-- Every history of the map is linearizable: the order in which calls take effect has every
call that returned, keeps the real-time order, and gives each the result it has on the
abstract finite map. A call that is still running, or was left by a panic, is in the order if
it has taken effect. An insertion in the order stores the very value that its closure returned,
or fails with the very error, on every run to this state.
-/
theorem linearizable [DecidableEq T] [Fintype T] {dbg : Bool} {s : Sys T K V E}
    (reachable : Reachable dbg s)
    : ∃ order, Library.Linearization FiniteMap.Step ∅ s.history order
        ∧ ∀ effect ∈ order, ∀ outcome,
            s.ClosureReturned dbg effect.id outcome ↔ effect.res.outcome? = some outcome := by
  obtain ⟨map, run, _⟩ := reachable.explained
  exact ⟨_, (tracked_of_run reachable.run).recorded.linearization run, fun _ member =>
    reachable.closureReturned_iff member⟩

/-- The order that explains a run has the insertion that returned in it, with the value of its
closure.
-/
theorem linearizable_insertAndGet
    : ∃ (s : Sys Unit UInt64 Nat Empty) (order : _),
        Library.Linearization FiniteMap.Step ∅ s.history order
        ∧ s.ClosureReturned true 0 (.closureOk 7)
        ∧ ∃ op, ⟨0, op, .inserted ((1 : UInt64) <<< 32) ⟨3, 7⟩⟩ ∈ order := by
  have found : (Sys.run true (.withKey Unit UInt64 Nat Empty) insertAndGet).map
      (fun s => decide (.ret 0 (.inserted ((1 : UInt64) <<< 32) ⟨3, 7⟩) ∈ s.history))
      = some true := by decide +kernel
  obtain ⟨s, reached, returned⟩ := Option.map_eq_some_iff.mp found
  obtain ⟨order, explains, outcomes⟩ := linearizable (Sys.Reachable.of_run reached)
  obtain ⟨op, member⟩ := explains.complete 0 _ (of_decide_eq_true returned)
  exact ⟨s, order, explains, (outcomes _ member _).mpr rfl, op, member⟩

end AtomicSlotMap
