import AtomicSlotMap.Correctness.CounterAtRest
import AtomicSlotMap.Correctness.FailedInsertion
import AtomicSlotMap.Correctness.LossyIteration
import AtomicSlotMap.Correctness.SequentialCalls
import AtomicSlotMap.Specification.Reference

/-! On a single thread every call answers what the reference does: a finite map with the guards
that pin a value each.
-/

namespace AtomicSlotMap

variable {T K V E : Type} [Key K]

section

variable {dbg : Bool} {s : Sys T K V E} {pc pc' : Pc K V E} {op : Op K} {res : Res K V E}

/-- A call that answers where it stands is none on a guard and hands out none, by cases on the
move.
-/
theorem Pc.Answers.beside (answers : pc.Answers dbg s res pc') (serves : pc.Serves op)
    : op.onGuard = false ∧ res.guard? = none := by
  cases answers with
  | nextDone currentIdx beyond =>
      refine ⟨?_, rfl⟩
      cases op with
      | next => rfl
      | _ => cases serves
  | _ =>
      cases serves
      exact ⟨rfl, rfl⟩

/-- What is loaded as the number of entries is their number, by cases on the move. -/
theorem Pc.Answers.counts (answers : pc.Answers dbg s res pc') (serves : pc.Serves op) {size : Nat}
    (counter : pc = .lenLoad ∨ pc = .isEmptyLoad → s.numElems = size)
    : Reference.Counts size op res := by
  cases answers with
  | lossyLen =>
      cases serves
      rw [counter (Or.inl rfl)]
      exact rfl
  | lossyIsEmpty =>
      cases serves
      rw [counter (Or.inr rfl)]
      exact rfl
  | nextDone currentIdx beyond =>
      cases op with
      | next => trivial
      | _ => cases serves
  | _ =>
      cases serves
      trivial

theorem Pc.waits.counting (waits : pc.waits = true) : pc.counting = 0 ∧ pc.discounting = 0 := by
  cases pc with
  | idle | iterating | closure => exact ⟨rfl, rfl⟩
  | _ => cases waits

end

namespace Sys

/-- A state stands for a reference: it has its contents, and its guards are the pinned ones. -/
structure StandsFor (s : Sys T K V E) (ref : Reference K V) : Prop where
  contents : s.Represents ref.map
  pinned : ref.pinned = s.guards
  ids : ∀ guard ∈ s.guards, guard.id < s.guardIds

omit [Key K] in
theorem StandsFor.withKey : (Sys.withKey T K V E).StandsFor .empty where
  contents := by
    intro place
    rw [Reference.empty, Finmap.lookup_empty, bound]
    split <;> rfl
  pinned := rfl
  ids := by simp [Sys.withKey]

section

variable {s s' : Sys T K V E} {ref : Reference K V}

omit [Key K] in
theorem StandsFor.silent (stands : s.StandsFor ref) (silent : s.Silent s') : s'.StandsFor ref where
  contents := stands.contents.congr silent.bound
  pinned := by rw [silent.guards, stands.pinned]
  ids := by
    rw [silent.guards, silent.guardIds]
    exact stands.ids

omit [Key K] in
/-- A guard with the next id is none of those there are. -/
theorem StandsFor.fresh (stands : s.StandsFor ref)
    : ∀ other ∈ ref.pinned, other.id ≠ s.guardIds := by
  intro other member
  rw [stands.pinned] at member
  exact Nat.ne_of_lt (stands.ids other (Multiset.mem_coe.mp member))

end

section

variable [DecidableEq T] [Fintype T] {dbg : Bool} {s s' : Sys T K V E} {t : T}
  {free : List Nat} {ref : Reference K V} {op : Op K} {res : Res K V E}

/-- The guards of a state are pinned, each under its own id. -/
def Pinned (s : Sys T K V E) (pinned : Multiset (Guard K V)) : Prop :=
  pinned = s.guards ∧ ∀ guard ∈ s.guards, guard.id < s.guardIds

omit [Key K] [DecidableEq T] [Fintype T] in
theorem StandsFor.guards (stands : s.StandsFor ref) : s.Pinned ref.pinned :=
  ⟨stands.pinned, stands.ids⟩

omit [Key K] [DecidableEq T] [Fintype T] in
theorem Pinned.congr {pinned : Multiset (Guard K V)} (holds : s.Pinned pinned)
    (guards : s'.guards = s.guards) (guardIds : s'.guardIds = s.guardIds)
    : s'.Pinned pinned := by
  rw [Pinned, guards, guardIds]
  exact holds

omit [Key K] [Fintype T] in
theorem Pinned.answered {pinned : Multiset (Guard K V)} (holds : s.Pinned pinned)
    {staged : Sys T K V E} (guards : staged.guards = s.guards)
    (guardIds : staged.guardIds = s.guardIds) (res : Res K V E) (pc : Pc K V E)
    : ((staged.answer t res).goto t pc).Pinned pinned := by
  rw [answer_eq]
  exact holds.congr guards guardIds

omit [Key K] [DecidableEq T] [Fintype T] in
/-- A guard with the next id is pinned beside the others. -/
theorem Pinned.addGuard {pinned : Multiset (Guard K V)} (holds : s.Pinned pinned)
    {guard : Guard K V} (id : guard.id = s.guardIds)
    : (s.addGuard guard).Pinned (guard ::ₘ pinned) := by
  obtain ⟨rfl, ids⟩ := holds
  refine ⟨rfl, fun other member => ?_⟩
  rcases List.mem_cons.mp member with rfl | before
  · exact id ▸ Nat.lt_succ_self _
  · exact Nat.lt_succ_of_lt (ids other before)

omit [Key K] [DecidableEq T] [Fintype T] in
/-- A guard that is taken away leaves the others pinned. -/
theorem Pinned.takeGuard {pinned : Multiset (Guard K V)} (holds : s.Pinned pinned) {id : Nat}
    {guard : Guard K V} (found : s.guards.find? (·.id == id) = some guard)
    : guard.id = id
      ∧ ∃ others, pinned = guard ::ₘ others
          ∧ { s with guards := s.guards.eraseP (·.id == id) }.Pinned others := by
  obtain ⟨rfl, ids⟩ := holds
  refine ⟨by simpa using List.find?_some found, (s.guards.eraseP (·.id == id) : List _), ?_, rfl,
    fun other member => ids other (List.mem_of_mem_eraseP member)⟩
  exact Multiset.coe_eq_coe.mpr (perm_eraseP_of_find? found)

/-- Where a call takes effect, the pinned values are what the reference has, by cases on how it
does.
-/
theorem Takes.pins (takes : s.Takes dbg t op res s') (inv : s.Inv free)
    (stands : s.StandsFor ref)
    : ∃ pinned, Reference.Pins ref.pinned op res pinned ∧ s'.Pinned pinned := by
  have holds := stands.guards
  have added (guard : Guard K V) (id : guard.id = s.guardIds) := holds.addGuard id
  cases takes with
  | answered op res pc answers serves =>
      obtain ⟨apart, none⟩ := answers.beside serves
      exact ⟨_, .beside op res apart none, holds.answered (by rfl) (by rfl) res pc⟩
  | inserted idx version stored about =>
      refine ⟨_, .beside _ _ rfl rfl, ?_⟩
      exact holds.answered (by rfl) (by rfl) _ _
  | removed key current about same =>
      refine ⟨_, .beside _ _ rfl rfl, ?_⟩
      simp only [removeExchange, if_pos same]
      exact holds.answered (by rfl) (by rfl) _ _
  | acquired op key getter serves about same =>
      refine ⟨⟨s.guardIds, key, getter.owning, (s.slots (KeyData.idx key)).data⟩ ::ₘ ref.pinned,
        ?_, ?_⟩
      · cases getter with
        | get owning =>
            cases serves
            exact .got key owning _ stands.fresh
        | next currentIdx =>
            cases op <;> cases serves
            exact .yielded _ currentIdx key _ stands.fresh
      · simp only [acquireCheck, if_pos same]
        exact (added _ rfl).answered (by rfl) (by rfl) _ _
  | cloned guard about bounded =>
      have member : guard ∈ s.guards := by
        have fits := inv.fits t
        rwa [about] at fits
      refine ⟨⟨s.guardIds, guard.key, true, guard.pointee⟩ ::ₘ ref.pinned,
        .cloned guard _ ?_ rfl rfl stands.fresh, ?_⟩
      · rw [stands.pinned]
        exact Multiset.mem_coe.mpr member
      · simp only [cloneGuard, if_pos bounded]
        exact (added _ rfl).answered (by rfl) (by rfl) _ _
  | reserving additional calls =>
      exact ⟨_, .beside _ _ rfl rfl, holds.answered (by rfl) (by rfl) _ _⟩
  | read id guard calls found =>
      have member := List.mem_of_find?_eq_some found
      obtain ⟨key, stored, occupant, _, pointee⟩ := inv.guard_occupant member
      obtain ⟨_, data, _⟩ := inv.occupied occupant
      obtain rfl : guard.id = id := by simpa using List.find?_some found
      refine ⟨ref.pinned, ?_, holds.answered (by rfl) (by rfl) _ _⟩
      rw [data, ← pointee]
      refine .read guard ?_
      rw [stands.pinned]
      exact Multiset.mem_coe.mpr member
  | unguarding id guard calls found =>
      obtain ⟨rfl, others, split, rest⟩ := holds.takeGuard found
      exact ⟨others, .dropped guard others split, rest.answered (by rfl) (by rfl) _ _⟩
  | forgot id guard calls found =>
      obtain ⟨rfl, others, split, rest⟩ := holds.takeGuard found
      exact ⟨others, .forgot guard others split, rest.answered (by rfl) (by rfl) _ _⟩

omit [Fintype T] in
theorem Takes.counts (takes : s.Takes dbg t op res s') {size : Nat}
    (counter : s.pc t = .lenLoad ∨ s.pc t = .isEmptyLoad → s.numElems = size)
    : Reference.Counts size op res := by
  cases takes with
  | answered op res pc answers serves => exact answers.counts serves counter
  | acquired op key getter serves =>
      cases getter with
      | get owning =>
          cases serves
          trivial
      | next currentIdx => cases op <;> cases serves; trivial
  | _ => trivial

/-- Where a call takes effect, the reference takes the same step. -/
theorem Takes.refines (takes : s.Takes dbg t op res s') (inv : s.Inv free)
    (stands : s.StandsFor ref)
    (counter : s.pc t = .lenLoad ∨ s.pc t = .isEmptyLoad → s.numElems = s.occupied.card)
    : ∃ ref', ref.Step op res ref' ∧ s'.StandsFor ref' := by
  obtain ⟨map, contents, represents⟩ := takes.step inv stands.contents
  obtain ⟨pinned, pins, holds⟩ := takes.pins inv stands
  have counts := takes.counts counter
  rw [← stands.contents.card_occupied inv] at counts
  exact ⟨⟨map, pinned⟩, ⟨contents, pins, counts⟩, ⟨represents, holds.1, holds.2⟩⟩

/-- Nobody else is about to change the counter where a single thread loads it. -/
theorem Sequential.counter (sequential : Sequential dbg s) (only : s.Only t)
    (about : s.pc t = .lenLoad ∨ s.pc t = .isEmptyLoad)
    : s.numElems = s.occupied.card := by
  have calm := sequential.solo.calm
  obtain ⟨free, inv⟩ := calm.reachable.inv
  have still (u : T) : (s.pc u).counting = 0 ∧ (s.pc u).discounting = 0 := by
    by_cases self : u = t
    · subst u
      rcases about with about | about <;> rw [about] <;> exact ⟨rfl, rfl⟩
    · exact Pc.waits.counting (only u self)
  exact (tallied_of_run calm.reachable.run).numElems_eq inv calm.nothingLost
    (fun u => (still u).1) fun u => (still u).2

/-- The calls of a single thread act as those of the reference, by induction on the run. -/
theorem Sequential.refines (sequential : Sequential dbg s)
    : ∃ ref, Library.Behaves Reference.Step .empty (Library.effects s.history) ref
        ∧ s.StandsFor ref := by
  induction sequential with
  | refl => exact ⟨.empty, rfl, .withKey⟩
  | tail earlier last ih =>
      obtain ⟨t, choice, _, only, found, _⟩ := last
      obtain ⟨ref, run, stands⟩ := ih
      have reachable := (Sequential.solo earlier).calm.reachable
      obtain ⟨free, inv⟩ := reachable.inv
      rcases inv.takes (tracked_of_run reachable.run) (step_moves found) with
        silent | ⟨id, op, res, _, effects, takes⟩
      · exact ⟨ref, silent.effects ▸ run, stands.silent silent⟩
      · obtain ⟨ref', step, stands'⟩ := takes.refines inv stands (Sequential.counter earlier only)
        exact ⟨ref', effects ▸ run.concat step, stands'⟩

end

end Sys

-----------------------------------------------------------------------------------------
-- Traversals between updates
-----------------------------------------------------------------------------------------

/-- The insertions and removals that have taken effect. -/
def updatesTaken (history : List (HistoryEvent K V E)) : List (Library.Effect (Op K) (Res K V E)) :=
  (Library.effects history).filter fun effect => effect.res.isInsertion || effect.res.isRemoval

theorem Pc.Answers.still {dbg : Bool} {s : Sys T K V E} {pc pc' : Pc K V E} {res : Res K V E}
    (answers : pc.Answers dbg s res pc')
    : (res.isInsertion || res.isRemoval) = false := by
  cases answers <;> rfl

theorem FiniteMap.Step.still {map map' : FiniteMap V} {op : Op K} {res : Res K V E}
    (step : map.Step op res map') (apart : (res.isInsertion || res.isRemoval) = false)
    : map' = map := by
  cases step with
  | inserted | removed => cases apart
  | _ => rfl

/-- An operation and its result tell the step, by cases on the two steps. -/
theorem FiniteMap.Step.functional {map one other : FiniteMap V} {op : Op K} {res : Res K V E}
    (step : map.Step op res one) (step' : map.Step op res other)
    : one = other := by
  cases step with
  | beside op res apart =>
      cases step' with
      | beside => rfl
      | _ => cases apart
  | _ =>
      cases step' with
      | beside op res apart => cases apart
      | _ => rfl

section

variable [DecidableEq T] [Fintype T] {dbg : Bool} {s s' : Sys T K V E} {t : T}
  {states call : List (Sys T K V E)} {yielded : List (Yielded T K V E)} {map : FiniteMap V}

/-- The contents are what the insertions and removals have made of the empty map. -/
theorem Sys.Calm.bound_of_updates (calm : s.Calm dbg) (calm' : s'.Calm dbg)
    (same : updatesTaken s.history = updatesTaken s'.history)
    : s.bound = s'.bound := by
  obtain ⟨map, run, represents⟩ := calm.reachable.explained
  obtain ⟨map', run', represents'⟩ := calm'.reachable.explained
  have updated {order : List (Library.Effect (Op K) (Res K V E))} {final : FiniteMap V}
      (run : Library.Behaves FiniteMap.Step ∅ order final) :
      Library.Behaves FiniteMap.Step ∅
        (order.filter fun effect => effect.res.isInsertion || effect.res.isRemoval) final :=
    run.filter fun _ _ _ step apart => step.still apart
  have one := updated run
  rw [← updatesTaken, same] at one
  obtain rfl := Library.Behaves.unique (fun _ _ _ _ _ step step' => step.functional step') one
    (updated run')
  funext place
  rw [← represents place, represents' place]

omit [Fintype T] in
/-- Only insertions and removals take effect as such, by cases on how a call does. -/
theorem Sys.Takes.updates {op : Op K} {res : Res K V E} (takes : s.Takes dbg t op res s')
    (updates : (res.isInsertion || res.isRemoval) = true)
    : (s.pc t).busy = true ∧ ∀ op, (s.pc t).Serves op → op.isUpdate = true := by
  cases takes with
  | inserted idx version stored about =>
      rw [about]
      refine ⟨rfl, fun op serves => ?_⟩
      cases serves
      rfl
  | removed key current about same =>
      rw [about]
      refine ⟨rfl, fun op serves => ?_⟩
      cases serves
      rfl
  | answered op res pc answers => cases answers.still.symm.trans updates
  | acquired op key getter => cases getter <;> cases updates
  | _ => cases updates

/-- An activity that executes no insertion or removal leaves those that have taken effect. -/
theorem Sys.Reachable.updatesTaken_of_other (reachable : Sys.Reachable dbg s) (moves : s.Moves dbg t s')
    (other : ∀ id op, s.current t = some (id, op) → op.isUpdate = false)
    : updatesTaken s'.history = updatesTaken s.history := by
  obtain ⟨free, inv⟩ := reachable.inv
  have tracked := Sys.tracked_of_run reachable.run
  rcases inv.takes tracked moves with silent | ⟨id, op, res, _, effects, takes⟩
  · rw [updatesTaken, silent.effects, updatesTaken]
  · have apart : (res.isInsertion || res.isRemoval) = false := by
      rw [Bool.eq_false_iff]
      intro updates
      obtain ⟨busy, only⟩ := takes.updates updates
      obtain ⟨id, op, current, running⟩ := tracked.exists_running (Pc.awake_of_busy busy).2
      cases (other id op current).symm.trans (only op running.serves)
    rw [updatesTaken, effects, List.filter_append, List.filter_cons_of_neg (by simp [apart]),
      List.filter_nil, List.append_nil, updatesTaken]

/-- A traversal goes through states of a run, by induction on the traversal. -/
theorem Traversal.calm (traversal : Traversal dbg t states call yielded)
    : ∀ before ∈ states, before.Calm dbg := by
  have latest {s : Sys T K V E} {states call : List (Sys T K V E)}
      {yielded : List (Yielded T K V E)}
      (traversal : Traversal dbg t (s :: states) call yielded) : s.Calm dbg :=
    (traversal.walked s rfl).1
  induction traversal with
  | create calm idle created =>
      intro before member
      cases List.mem_singleton.mp member
      exact latest (.create calm idle created)
  | call earlier currentIdx about called ih =>
      intro before member
      rcases List.mem_cons.mp member with rfl | member
      · exact latest (.call earlier currentIdx about called)
      · exact ih before member
  | step earlier actor choice inside within found awake ih =>
      intro before member
      rcases List.mem_cons.mp member with rfl | member
      · exact latest (.step earlier actor choice inside within found awake)
      · exact ih before member
  | yield earlier key guard currentIdx about returned ih =>
      intro before member
      rcases List.mem_cons.mp member with rfl | member
      · exact latest (.yield earlier key guard currentIdx about returned)
      · exact ih before member

/-- The yielded pairs are exactly the entries of a map, in increasing order of their slots. -/
structure Exhausts (map : FiniteMap V) (yielded : List (Yielded T K V E)) : Prop where
  increasing : (yielded.map fun item => KeyData.idx item.key).Pairwise (· < ·)
  named : ∀ item ∈ yielded, item.guard.key = item.key
  entries
    : ∀ place stored,
        map.lookup place = some stored
        ↔ ∃ item ∈ yielded,
            KeyData.place item.key = place ∧ item.guard.pointee = some stored

/-- A traversal during which nothing is inserted or removed yields exactly the contents. -/
theorem Traversal.exact (traversal : Traversal dbg t (s :: states) call yielded)
    {currentIdx : Nat} (last : s.pc t = .ret (.next none currentIdx))
    (undisturbed : ∀ before ∈ states, updatesTaken before.history = updatesTaken s.history)
    (represents : s.Represents map)
    : Exhausts map yielded := by
  obtain ⟨calm, walked⟩ := traversal.walked s rfl
  have same (before : Sys T K V E) (member : before ∈ s :: states) : before.bound = s.bound := by
    rcases List.mem_cons.mp member with rfl | earlier
    · rfl
    · exact Sys.Calm.bound_of_updates (traversal.calm before member) calm
        (undisturbed before earlier)
  have values (item : Yielded T K V E) (member : item ∈ yielded) :
      ∃ stored, s.bound (KeyData.place item.key) = some stored
        ∧ item.guard.pointee = some stored := by
    obtain ⟨_, before, instant, stored, bound, pointee⟩ := walked.found item member
    rw [same before (walked.during item member before instant)] at bound
    exact ⟨stored, bound, pointee⟩
  refine ⟨walked.increasing, fun item member => (walked.found item member).1,
    fun place stored => ⟨fun found => ?_, ?_⟩⟩
  · rw [represents place] at found
    have kept : KeptIn (s :: states) place := by
      intro before member
      rw [same before member, found]
      rfl
    obtain ⟨done, _, walk, _, _, covers⟩ := walked.position
    have aims := walked.aims
    rw [last] at walk aims
    cases walk
    obtain ⟨item, member, rfl⟩ := covers place kept (aims place kept)
    obtain ⟨value, bound, pointee⟩ := values item member
    cases bound.symm.trans found
    exact ⟨item, member, rfl, pointee⟩
  · rintro ⟨item, member, rfl, pointee⟩
    obtain ⟨value, bound, pointee'⟩ := values item member
    rw [represents, bound, ← pointee', pointee]

end

-----------------------------------------------------------------------------------------
-- Refinement
-----------------------------------------------------------------------------------------

namespace Sys

variable [DecidableEq T] [Fintype T] {dbg : Bool} {s : Sys T K V E} {t : T}

/-- A closure that succeeds makes its insertion return the key it was called with, for its value. -/
theorem Unhindered.inserts (unhindered : Unhindered dbg s t) {free : List Nat} (inv : s.Inv free)
    {idx version : Nat} (about : s.pc t = .closure idx version) (value : V)
    : ∃ going, step dbg s t (.closureOk value) = some going
        ∧ Library.Eventually (GoTurn dbg t) (·.Inserted t idx version value) going := by
  have reaches := (reaching_of_run unhindered.granted).pcs t
  rw [about] at reaches
  obtain ⟨going, answered, eventually⟩ :=
    exists_inserted dbg about (fun _ => (inv.offered about).1) reaches.2 value
  exact ⟨going, answered, eventually_go (eventually.mono fun _ reached => reached.1)⟩

end Sys

open Sys in
/-- Every run of a single thread, whose closures may fail and may make calls of their own to any
depth, acts as the reference: the calls take effect one after the other, each returns what a finite
map with pinned values does there, and the state stands for what the reference has come to. A full
traversal during which nothing is inserted or removed yields exactly the entries, in increasing
order of their slots; and calls of other kinds, such as those of `next`, insert and remove nothing.
If no allocation has failed, every call comes to its end or to its closure, and a closure that
succeeds makes the insertion return the key it was called with, bound to its value.
-/
theorem sequential_refinement [DecidableEq T] [Fintype T] {dbg : Bool} {s : Sys T K V E}
    (sequential : Sequential dbg s)
    : (∃ ref,
        Library.Linearization Reference.Step .empty s.history (Library.effects s.history)
        ∧ Library.Behaves Reference.Step .empty (Library.effects s.history) ref
        ∧ s.StandsFor ref
        ∧ ∀ t states call yielded currentIdx,
            Traversal dbg t (s :: states) call yielded →
            s.pc t = .ret (.next none currentIdx) →
            (∀ before ∈ states, updatesTaken before.history = updatesTaken s.history) →
            Exhausts ref.map yielded)
      ∧ (∀ t choice s',
          step dbg s t choice = some s' →
          (∀ id op, s.current t = some (id, op) → op.isUpdate = false) →
          updatesTaken s'.history = updatesTaken s.history)
      ∧ (Relation.ReflTransGen (GrantedStep dbg) (.withKey T K V E) s →
          ∀ t, s.Only t →
            Library.Eventually (GoTurn dbg t) (fun s' => (s'.pc t).paused = true) s
            ∧ ∀ idx version value, s.pc t = .closure idx version →
                ∃ going, step dbg s t (.closureOk value) = some going
                  ∧ Library.Eventually (GoTurn dbg t) (·.Inserted t idx version value)
                      going) := by
  have reachable := (Sequential.solo sequential).calm.reachable
  obtain ⟨free, inv⟩ := reachable.inv
  obtain ⟨ref, run, stands⟩ := Sequential.refines sequential
  refine ⟨⟨ref, (tracked_of_run reachable.run).recorded.linearization run, run, stands, ?_⟩, ?_, ?_⟩
  · intro t states call yielded currentIdx traversal last undisturbed
    exact traversal.exact last undisturbed stands.contents
  · intro t choice s' found other
    exact reachable.updatesTaken_of_other (step_moves found) other
  · intro granted t only
    have unhindered : Unhindered dbg s t := ⟨Sequential.steady sequential t, only, granted⟩
    exact ⟨unhindered.pauses, fun idx version value about => unhindered.inserts inv about value⟩

/-- While the closure of an insertion runs, its thread inserts another value, takes an owning guard
on it, removes its key, reads the guard, and asks for the key and for the number of entries.
-/
def insertWhileInserting : List (Bool × Choice UInt64 Nat Empty) :=
  Sys.turns false [.call .tryInsertWithKey, .go, .go, .go, .go, .go]
  ++ Sys.turns true (
    [.call .tryInsertWithKey, .go, .go, .go, .closureOk 7] ++ List.replicate 8 .go
    ++ .call (.get 0x1_0000_0001 true) :: List.replicate 6 .go
    ++ .call (.remove 0x1_0000_0001) :: List.replicate 7 .go
    ++ [.call (.derefGuard 0), .go]
    ++ .call (.containsKey 0x1_0000_0001) :: List.replicate 4 .go
    ++ [.call .lossyLen, .go, .go])

open Sys in
/-- There the guard still reads its value, the key is gone and the map is empty; and the outer
insertion goes on to return its key.
-/
theorem sequential_refinement_insertWhileInserting
    : ∃ s : Sys Bool UInt64 Nat Empty,
        (∃ ref,
          Library.Behaves Reference.Step .empty (Library.effects s.history) ref
          ∧ s.StandsFor ref)
        ∧ .ret 4 (.read (some ⟨4, 7⟩)) ∈ s.history
        ∧ .ret 5 (.contains false) ∈ s.history
        ∧ .ret 6 (.len 0) ∈ s.history
        ∧ ∃ going, step true s false (.closureOk 5) = some going
            ∧ Library.Eventually (GoTurn true false) (·.Inserted false 0 1 5) going := by
  have found : (Sys.runIf (fun s t => (s.bounded? && decide (s.Only t)) && s.calm?) true
      (.withKey Bool UInt64 Nat Empty) insertWhileInserting).map
      (fun s => (s.calm?, (s.pc false).offered?, decide (s.Only false),
        decide (.ret 4 (.read (some ⟨4, 7⟩)) ∈ s.history),
        decide (.ret 5 (.contains false) ∈ s.history), decide (.ret 6 (.len 0) ∈ s.history)))
      = some (true, some (0, 1), true, true, true, true) := by decide +kernel
  obtain ⟨s, reached, after⟩ := Option.map_eq_some_iff.mp found
  simp only [Prod.mk.injEq, decide_eq_true_eq] at after
  obtain ⟨calm, offered, only, read, absent, empty⟩ := after
  have granted : Relation.ReflTransGen (GrantedStep true) (.withKey Bool UInt64 Nat Empty) s :=
    Relation.ReflTransGen.mono (fun _ _ => SuppliedStep.granted) _ _
      (supplied_of_runIf reached (by decide))
  obtain ⟨⟨ref, _, run, stands, _⟩, _, ends⟩ := sequential_refinement (.of_run reached calm)
  refine ⟨s, ⟨ref, run, stands⟩, read, absent, empty, ?_⟩
  exact (ends granted false only).2 0 1 5 (Pc.eq_closure offered)

end AtomicSlotMap
