import AtomicSlotMap.Correctness.Linearization
import AtomicSlotMap.History.Rest

/-! The element counter is exact whenever no insertion or removal is being executed. -/

namespace AtomicSlotMap

variable {T K V E : Type} [Key K]

/-- The operations that change the contents of the map. -/
def Op.isUpdate : Op K → Bool
  | .tryInsertWithKey | .remove _ => true
  | _ => false

/-- The result of a successful insertion. -/
def Res.isInsertion : Res K V E → Bool
  | .inserted _ _ => true
  | _ => false

/-- The result of a `remove` that returned true. -/
def Res.isRemoval : Res K V E → Bool
  | .removed contained => contained
  | _ => false

/-- The insertions that have returned a key. -/
def returnedInsertions (history : List (HistoryEvent K V E)) : Nat :=
  (Library.returns history).countP (·.2.isInsertion)

/-- The calls of `remove` that have returned true. -/
def returnedRemovals (history : List (HistoryEvent K V E)) : Nat :=
  (Library.returns history).countP (·.2.isRemoval)

omit [Key K] in
theorem Op.Yields.isUpdate {op : Op K} {res : Res K V E} (yields : op.Yields res)
    (changes : res.isInsertion = true ∨ res.isRemoval = true)
    : op.isUpdate = true := by
  cases res with
  | inserted key stored =>
      cases yields
      rfl
  | removed contained =>
      obtain ⟨key, rfl⟩ := yields
      rfl
  | _ => rcases changes with inserted | removed <;> contradiction

/-- A step changes the size by what its result tells, by cases on the step. -/
theorem FiniteMap.Step.card {map map' : FiniteMap V} {op : Op K} {res : Res K V E}
    (step : map.Step op res map') (yields : op.Yields res)
    : map.keys.card + (if res.isInsertion then 1 else 0)
      = map'.keys.card + if res.isRemoval then 1 else 0 := by
  cases step with
  | inserted key stored absent =>
      have keys : (map.insert (KeyData.place key) stored).keys
          = insert (KeyData.place key) map.keys := by
        ext place
        simp [Finmap.mem_keys, Finmap.mem_insert]
      rw [keys, Finset.card_insert_of_notMem (mt Finmap.mem_keys.mp absent)]
      rfl
  | removed key present =>
      rw [Finmap.keys_erase]
      exact (Finset.card_erase_add_one (Finmap.mem_keys.mpr present)).symm
  | beside op res apart =>
      cases res with
      | inserted key stored =>
          cases yields
          cases apart
      | removed contained =>
          obtain ⟨key, rfl⟩ := yields
          cases apart
      | _ => rfl
  | _ => rfl

/-- A run changes the size by its insertions and removals, by induction on the run. -/
theorem FiniteMap.card_of_behaves {map map' : FiniteMap V}
    {order : List (Library.Effect (Op K) (Res K V E))}
    (run : Library.Behaves FiniteMap.Step map order map')
    (yields : ∀ effect ∈ order, effect.op.Yields effect.res)
    : map.keys.card + order.countP (·.res.isInsertion)
      = map'.keys.card + order.countP (·.res.isRemoval) := by
  induction order generalizing map with
  | nil =>
      cases run
      rfl
  | cons effect rest ih =>
      obtain ⟨middle, first, run⟩ := run
      have step := first.card (yields effect List.mem_cons_self)
      have later := ih run fun other member => yields other (List.mem_cons_of_mem _ member)
      rw [List.countP_cons, List.countP_cons]
      omega

-----------------------------------------------------------------------------------------
-- Updates of the counter that are still to come
-----------------------------------------------------------------------------------------

/-- Who is yet to count an insertion has published it, by induction on the waits. -/
theorem Pc.answered_of_counting {pc : Pc K V E} (counting : pc.counting ≠ 0)
    : ∃ res, pc.answered = some res ∧ res.isInsertion = true := by
  induction pc with
  | waitForChunk _ next ih => exact ih counting
  | assertRefCount _ next ih => exact ih counting
  | assertVersion _ next ih => exact ih counting
  | insertCount key stored => exact ⟨_, rfl, rfl⟩
  | _ => exact absurd rfl counting

theorem AfterPush.answered_of_discounting {after : AfterPush K E} (discounting : after.discounting ≠ 0)
    : after.answered = some (.removed true : Res K V E) := by
  cases after with
  | removed key => rfl
  | _ => exact absurd rfl discounting

/-- Who is yet to count a removal has made it, by induction on the waits. -/
theorem Pc.answered_of_discounting {pc : Pc K V E} (discounting : pc.discounting ≠ 0)
    : ∃ res, pc.answered = some res ∧ res.isRemoval = true := by
  induction pc with
  | waitForChunk _ next ih => exact ih discounting
  | assertRefCount _ next ih => exact ih discounting
  | assertVersion _ next ih => exact ih discounting
  | removeDec key | removeCount key => exact ⟨_, rfl, rfl⟩
  | dropValue _ after | pushLoad _ after | pushStore _ _ after | pushCas _ _ after =>
      exact ⟨_, AfterPush.answered_of_discounting discounting, rfl⟩
  | _ => exact absurd rfl discounting

namespace Sys

/-- No insertion or removal is being executed. -/
def AtRest (s : Sys T K V E) : Prop :=
  ∀ t id op, s.current t = some (id, op) → op.isUpdate = false

section

variable [DecidableEq T] [Fintype T] {dbg : Bool} {s s' : Sys T K V E} {t : T}
  {free : List Nat} {map : FiniteMap V}

/-- The occupied slots are those of the keys of the abstract map. -/
theorem Represents.card_occupied (represents : s.Represents map) (inv : s.Inv free)
    : map.keys.card = s.occupied.card := by
  have present {place : Nat × Nat} (member : place ∈ map.keys) :
      (s.slots place.1).version = place.2 ∧ place.2 % 2 = 1 := by
    obtain ⟨stored, found⟩ := Finmap.mem_iff.mp (Finmap.mem_keys.mp member)
    rw [represents place, bound, Option.ite_none_right_eq_some] at found
    exact found.1
  have slots : map.keys.image Prod.fst = s.occupied := by
    ext idx
    simp only [Finset.mem_image, occupied, Finset.mem_filter, Finset.mem_range]
    constructor
    · rintro ⟨place, member, rfl⟩
      obtain ⟨current, odd⟩ := present member
      obtain ⟨key, stored, live⟩ := inv.owned.live_of_version place.1 current odd
      exact ⟨inv.owned.lt_len (by simp [live]), current ▸ odd⟩
    · rintro ⟨within, odd⟩
      obtain ⟨key, stored, live⟩ := inv.owned.live_of_version idx rfl odd
      have fits := inv.owned.slots idx
      rw [live] at fits
      have bound : s.bound (idx, (s.slots idx).version) = some stored :=
        (if_pos ⟨rfl, odd⟩).trans fits.2.2.2
      exact ⟨(idx, (s.slots idx).version), Finmap.mem_keys.mpr (represents.mem bound), rfl⟩
  rw [← slots]
  refine (Finset.card_image_of_injOn ?_).symm
  intro place member other member' same
  refine Prod.ext same ?_
  rw [← (present member).1, ← (present member').1]
  exact congrArg (fun idx => (s.slots idx).version) same

/-- At rest nobody has taken effect with an insertion or removal that is yet to be returned. -/
theorem AtRest.unpending (rest : s.AtRest) (calm : Calm dbg s) {res : Res K V E}
    (answered : (s.pc t).answered = some res)
    : ¬ (res.isInsertion = true ∨ res.isRemoval = true) := by
  intro changes
  have tracked := tracked_of_run calm.reachable.run
  have awake : ¬ (s.pc t).Rests := by
    rintro (idle | ⟨_, iterating⟩)
    · rw [idle] at answered
      cases answered
    · rw [iterating] at answered
      cases answered
  obtain ⟨id, op, current, running⟩ := tracked.exists_running awake
  have took := running.effect res answered
  have yields := Reachable.yields calm.reachable ⟨id, op, res⟩ (Library.mem_effects.mpr took)
  cases (rest t id op current).symm.trans (yields.isUpdate changes)

/-- At rest every insertion and removal that took effect has returned. -/
theorem AtRest.returned (rest : s.AtRest) (calm : Calm dbg s)
    {effect : Library.Effect (Op K) (Res K V E)} (took : effect ∈ Library.effects s.history)
    (changes : effect.res.isInsertion = true ∨ effect.res.isRemoval = true)
    : .ret effect.id effect.res ∈ s.history := by
  refine calm.returned took fun t running => ?_
  have yields := Reachable.yields calm.reachable effect took
  cases (rest t _ _ running).symm.trans (yields.isUpdate changes)

end

end Sys

open Sys in
/-- In every run without panics, of any number of activities, and in every state of it in which
no insertion or removal is being executed, the counter is the number of slots with an odd
version, which is the number of insertions that returned a key less that of the calls of
`remove` that returned true; and `lossy_len` and `lossy_is_empty` load it then.
-/
theorem counter_exact_at_rest [DecidableEq T] [Fintype T] {dbg : Bool} {s : Sys T K V E}
    (calm : Calm dbg s) (rest : s.AtRest)
    : s.numElems = s.occupied.card
      ∧ returnedInsertions s.history = s.occupied.card + returnedRemovals s.history
      ∧ ∀ t s', step dbg s t .go = some s' →
          (s.pc t = .lenLoad → s'.pc t = .ret (.len s.occupied.card))
          ∧ (s.pc t = .isEmptyLoad → s'.pc t = .ret (.isEmpty (s.occupied.card == 0))) := by
  have reachable := calm.reachable
  obtain ⟨free, inv⟩ := reachable.inv
  have tracked := tracked_of_run reachable.run
  have counter : s.numElems = s.occupied.card := by
    apply (tallied_of_run reachable.run).numElems_eq inv calm.nothingLost
    · intro t
      by_contra counting
      obtain ⟨res, answered, inserts⟩ := Pc.answered_of_counting counting
      exact rest.unpending calm answered (Or.inl inserts)
    · intro t
      by_contra discounting
      obtain ⟨res, answered, removes⟩ := Pc.answered_of_discounting discounting
      exact rest.unpending calm answered (Or.inr removes)
  refine ⟨counter, ?_, ?_⟩
  · obtain ⟨map, run, represents⟩ := reachable.explained
    have sizes := FiniteMap.card_of_behaves run reachable.yields
    rw [returnedInsertions, returnedRemovals,
      tracked.recorded.countP_returns Res.isInsertion fun effect took inserts =>
        rest.returned calm took (Or.inl inserts),
      tracked.recorded.countP_returns Res.isRemoval fun effect took removes =>
        rest.returned calm took (Or.inr removes),
      ← represents.card_occupied inv, ← sizes]
    simp
  · intro t s' found
    rw [← counter]
    refine ⟨fun about => ?_, fun about => ?_⟩
    · simp only [step, about] at found
      cases Choice.eq_of_onGo found
      rw [pc_goto_self]
    · simp only [step, about] at found
      cases Choice.eq_of_onGo found
      rw [pc_goto_self]

/-- A single activity inserts a value, takes a guard on it, removes its key and inserts another
value, while the guard is still alive.
-/
def insertGetRemoveInsert : List (Unit × Choice UInt64 Nat Empty) :=
  Sys.turns () (
    [.call .tryInsertWithKey, .go, .go, .go, .go, .go, .closureOk 7]
    ++ List.replicate 8 .go
    ++ .call (.get ((1 : UInt64) <<< 32) false) :: List.replicate 6 .go
    ++ .call (.remove ((1 : UInt64) <<< 32)) :: List.replicate 7 .go
    ++ [.call .tryInsertWithKey, .go, .go, .go, .closureOk 8]
    ++ List.replicate 8 .go)

open Sys in
/-- After that run one slot of two is occupied, and two insertions and a removal have returned. -/
theorem counter_exact_at_rest_insertGetRemoveInsert
    : ∃ s : Sys Unit UInt64 Nat Empty,
        s.len = 2
        ∧ s.guards.length = 1
        ∧ s.occupied.card = 1
        ∧ returnedRemovals s.history = 1
        ∧ s.numElems = s.occupied.card
        ∧ returnedInsertions s.history = s.occupied.card + returnedRemovals s.history := by
  have found : (Sys.runIf (fun s t => s.within? t && s.calm?) true
      (.withKey Unit UInt64 Nat Empty) insertGetRemoveInsert).map
      (fun s => (s.calm?, (s.current ()).isNone, s.len, s.guards.length, s.occupied.card,
        returnedRemovals s.history)) = some (true, true, 2, 1, 1, 1) := by decide +kernel
  obtain ⟨s, reached, after⟩ := Option.map_eq_some_iff.mp found
  simp only [Prod.mk.injEq] at after
  obtain ⟨calm, resting, len, guarded, occupied, removed⟩ := after
  have rest : s.AtRest := by
    intro t id op running
    rw [Option.isNone_iff_eq_none.mp resting] at running
    cases running
  obtain ⟨counter, balance, _⟩ := counter_exact_at_rest (.of_run reached calm) rest
  exact ⟨s, len, guarded, occupied, removed, counter, balance⟩

end AtomicSlotMap
