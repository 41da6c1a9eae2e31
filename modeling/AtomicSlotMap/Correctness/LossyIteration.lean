import AtomicSlotMap.Correctness.Linearization
import AtomicSlotMap.History.Rest

/-! What an iteration guarantees while other activities change the map: it yields increasing
indices, only keys that are present at some instant of the call, and every key that stays.
-/

namespace AtomicSlotMap

variable {T K V E : Type} [Key K]

/-- A pair that an iterator has yielded, and the states through which that call of `next` went,
latest first.
-/
structure Yielded (T K V E : Type) where
  key : K
  guard : Guard K V
  call : List (Sys T K V E)

/-- Whether an activity is in a call that it has neither finished nor left by a panic. -/
def Pc.inside : Pc K V E → Bool
  | .idle | .iterating _ | .ret _ | .unwinding => false
  | _ => true

/-- An iteration by activity `t`, among steps of the others: the states since the iterator was
created, those of the running call of `next`, both latest first, and what has been yielded. It
is complete where `next` returns `None`.
-/
inductive Traversal [DecidableEq T] [Fintype T] (dbg : Bool) (t : T)
    : List (Sys T K V E) → List (Sys T K V E) → List (Yielded T K V E) → Prop
  | create {s s' : Sys T K V E} (calm : s.Calm dbg) (idle : s.pc t = .idle)
    (created : step dbg s t .iterate = some s')
    : Traversal dbg t [s'] [] []
  | call {s s' : Sys T K V E} {states call : List (Sys T K V E)}
    {yielded : List (Yielded T K V E)} (before : Traversal dbg t (s :: states) call yielded)
    (currentIdx : Nat) (about : s.pc t = .iterating currentIdx)
    (called : step dbg s t (.call (.next currentIdx)) = some s')
    : Traversal dbg t (s' :: s :: states) [s'] yielded
  | step {s s' : Sys T K V E} {states call : List (Sys T K V E)}
    {yielded : List (Yielded T K V E)} (before : Traversal dbg t (s :: states) call yielded)
    (actor : T) (choice : Choice K V E)
    (inside : actor = t → (s.pc t).inside = true) (within : s.Within actor)
    (found : step dbg s actor choice = some s') (awake : s'.pc actor ≠ .unwinding)
    : Traversal dbg t (s' :: s :: states) (s' :: call) yielded
  | yield {s s' : Sys T K V E} {states call : List (Sys T K V E)}
    {yielded : List (Yielded T K V E)} (before : Traversal dbg t (s :: states) call yielded)
    (key : K) (guard : Guard K V) (currentIdx : Nat)
    (about : s.pc t = .ret (.next (some (key, guard)) currentIdx))
    (returned : step dbg s t .go = some s')
    : Traversal dbg t (s' :: s :: states) [] (yielded ++ [⟨key, guard, call⟩])

/-- A traversal that a schedule prescribes. -/
def traverse [DecidableEq T] [Fintype T] (dbg : Bool) (t : T)
    : List (T × Choice K V E) → List (Sys T K V E) → List (Sys T K V E) →
        List (Yielded T K V E) →
        Option (List (Sys T K V E) × List (Sys T K V E) × List (Yielded T K V E))
  | [], states, call, yielded => some (states, call, yielded)
  | _, [], _, _ => none
  | (actor, choice) :: schedule, s :: states, call, yielded =>
      if s.within? actor then
        (step dbg s actor choice).bind fun s' =>
          if (s'.pc actor).unwinds then none
          else if actor = t ∧ (s.pc t).inside = false then
            match s.pc t, choice with
            | .iterating _, .call (.next _) =>
                traverse dbg t schedule (s' :: s :: states) [s'] yielded
            | .ret (.next (some (key, guard)) _), .go =>
                traverse dbg t schedule (s' :: s :: states) []
                  (yielded ++ [⟨key, guard, call⟩])
            | _, _ => none
          else traverse dbg t schedule (s' :: s :: states) (s' :: call) yielded
      else none

omit [Key K] in
theorem Pc.unwinds_iff {pc : Pc K V E} : pc.unwinds = true ↔ pc = .unwinding := by
  cases pc <;> simp [Pc.unwinds]

/-- What a schedule prescribes is a traversal, by induction on the schedule. -/
theorem Traversal.of_traverse [DecidableEq T] [Fintype T] {dbg : Bool} {t : T}
    {schedule : List (T × Choice K V E)} {states call states' call' : List (Sys T K V E)}
    {yielded yielded' : List (Yielded T K V E)} (before : Traversal dbg t states call yielded)
    (found : traverse dbg t schedule states call yielded = some (states', call', yielded'))
    : Traversal dbg t states' call' yielded' := by
  induction schedule generalizing states call yielded with
  | nil =>
      cases states <;> cases found <;> exact before
  | cons head schedule ih =>
      obtain ⟨actor, choice⟩ := head
      cases states with
      | nil => cases found
      | cons s states =>
          simp only [traverse, Option.ite_none_right_eq_some] at found
          obtain ⟨checked, found⟩ := found
          obtain ⟨s', stepped, found⟩ := Option.bind_eq_some_iff.mp found
          have within := Sys.within_of_within? checked
          rw [Option.ite_none_left_eq_some] at found
          obtain ⟨awake, found⟩ := found
          rw [Pc.unwinds_iff] at awake
          split at found
          · next outside =>
            obtain ⟨rfl, _⟩ := outside
            split at found
            · next resting next about _ =>
              -- the step function only starts the call of `next` at `current_idx`
              have same : next = resting := by
                simp only [AtomicSlotMap.step, about, Option.ite_none_right_eq_some] at stepped
                exact beq_iff_eq.mp stepped.1
              exact ih (before.call resting about (same ▸ stepped)) found
            · next about _ => exact ih (before.yield _ _ _ about stepped) found
            · cases found
          · next inside =>
            refine ih (before.step actor choice (fun self => ?_) within stepped awake) found
            by_contra outside
            exact inside ⟨self, by simpa using outside⟩

-----------------------------------------------------------------------------------------
-- Where an iterator stands
-----------------------------------------------------------------------------------------

/-- The iterator's `current_idx`, of a getter called by `next`. -/
def Getter.currentIdx : Getter → Option Nat
  | .get _ => none
  | .next currentIdx => some currentIdx

def AfterPush.currentIdx : AfterPush K E → Option Nat
  | .missed getter => getter.currentIdx
  | _ => none

/-- Inside an iteration: the index below which all slots are done with, and `current_idx`. -/
def Pc.walk : Pc K V E → Option (Nat × Nat)
  | .waitForChunk _ next | .assertRefCount _ next | .assertVersion _ next => next.walk
  | .iterating currentIdx | .nextLen currentIdx | .ret (.next none currentIdx) =>
      some (currentIdx, currentIdx)
  | .nextGet idx | .nextVersion idx => some (idx, idx + 1)
  | .getLen key getter | .acquireLoad key getter | .acquireCas key getter _
  | .acquireVersion key getter => getter.currentIdx.map (KeyData.idx key, ·)
  | .acquireDec _ getter => getter.currentIdx.map fun currentIdx => (currentIdx, currentIdx)
  | .dropValue _ after | .pushLoad _ after | .pushStore _ _ after | .pushCas _ _ after =>
      after.currentIdx.map fun currentIdx => (currentIdx, currentIdx)
  | .ret (.next (some (key, _)) currentIdx) => some (KeyData.idx key, currentIdx)
  | _ => none

/-- The key that `next` tries is the one before `current_idx`, and of the current version if
its slot has been occupied by a kept key.
-/
def AimsAt (kept : Nat × Nat → Prop) (key : K) (currentIdx : Nat) : Prop :=
  currentIdx = KeyData.idx key + 1
  ∧ ∀ place, kept place → place.1 = KeyData.idx key → place.2 = KeyData.version key

/-- What an iterator knows of the key it tries, of the guard it has found, and at its end. -/
def Pc.Aims (kept : Nat × Nat → Prop) (found : K → Guard K V → Prop) : Pc K V E → Prop
  | .waitForChunk _ next | .assertRefCount _ next | .assertVersion _ next =>
      next.Aims kept found
  | .getLen key (.next currentIdx) | .acquireLoad key (.next currentIdx)
  | .acquireCas key (.next currentIdx) _ | .acquireVersion key (.next currentIdx) =>
      AimsAt kept key currentIdx
  | .ret (.next (some (key, guard)) currentIdx) =>
      AimsAt kept key currentIdx ∧ found key guard
  | .ret (.next none currentIdx) => ∀ place, kept place → place.1 < currentIdx
  | _ => True

/-- An iterator goes on to this access and is done with the kept keys of no more slots. -/
def Pc.WalksOn (kept : Nat × Nat → Prop) (found : K → Guard K V → Prop) (len done : Nat)
    (pc : Pc K V E)
    : Prop :=
  pc.Aims kept found
  ∧ ∃ done' currentIdx,
      pc.walk = some (done', currentIdx)
      ∧ currentIdx ≤ len
      ∧ done ≤ done'
      ∧ ∀ place, kept place → place.1 < done' → place.1 < done

section

variable [DecidableEq T] [Fintype T] {dbg : Bool} {s s' : Sys T K V E} {t : T} {free : List Nat}
  {kept kept' : Nat × Nat → Prop} {found found' : K → Guard K V → Prop} {pc pc' : Pc K V E}
  {done currentIdx : Nat}

/-- A bound key belongs to a live slot. -/
theorem Sys.Inv.live_of_bound (inv : s.Inv free) {place : Nat × Nat}
    (bound : (s.bound place).isSome)
    : (s.slots place.1).version = place.2
      ∧ place.2 % 2 = 1
      ∧ place.1 < s.len
      ∧ 0 < (s.slots place.1).refCount := by
  rw [Sys.bound] at bound
  split at bound
  · next current =>
    obtain ⟨key, stored, live⟩ := inv.owned.live_of_version place.1 current.1 current.2
    have fits := inv.owned.slots place.1
    rw [live] at fits
    have count : (s.slots place.1).refCount = 1 + (s.view free).refs place.1 := fits.2.2.1
    exact ⟨current.1, current.2, inv.owned.lt_len (by simp [live]), by omega⟩
  · cases bound

omit [DecidableEq T] [Fintype T] in
/-- Going on without a change of the position. -/
theorem Pc.WalksOn.same {len : Nat} (walk : pc.walk = some (done, currentIdx))
    (within : currentIdx ≤ len) (aims : pc.Aims kept found)
    : pc.WalksOn kept found len done :=
  ⟨aims, done, currentIdx, walk, within, Nat.le_refl _, fun _ _ below => below⟩

omit [DecidableEq T] [Fintype T] in
/-- Going on behind a slot that has no kept key. -/
theorem Pc.WalksOn.passed {len idx : Nat} (walk : pc.walk = some (idx + 1, idx + 1))
    (within : idx + 1 ≤ len) (aims : pc.Aims kept found) (nobody : ∀ place, kept place → place.1 ≠ idx)
    : pc.WalksOn kept found len idx := by
  refine ⟨aims, idx + 1, idx + 1, walk, within, Nat.le_succ _, fun place keeps below => ?_⟩
  have apart := nobody place keeps
  omega

/-- A move inside `next` goes on with the iteration, by cases on the move. -/
theorem Pc.Goes.walk (goes : pc.Goes dbg s pc') (inv : s.Inv free)
    (present : ∀ place, kept place → (s.bound place).isSome)
    (walk : pc.walk = some (done, currentIdx)) (within : currentIdx ≤ s.len)
    (aims : pc.Aims kept found) (inside : ¬ pc.Rests)
    : pc'.WalksOn kept found s.len done := by
  have live {place : Nat × Nat} (keeps : kept place) := inv.live_of_bound (present place keeps)
  cases goes with
  | arrived | unreferenced | unoccupied => exact .same walk within aims
  | getFound key getter => cases getter <;> exact .same walk within aims
  | acquireLoad key getter => cases getter <;> exact .same walk within aims
  | acquireAgain key getter => cases getter <;> exact .same walk within aims
  | pushLoad | pushAgain => exact .same walk within aims
  | endIterate currentIdx => exact absurd (Or.inr ⟨currentIdx, rfl⟩) inside
  | getMissed key currentIdx beyond =>
      cases walk
      obtain ⟨rfl, _⟩ := aims
      refine .passed rfl within trivial fun place keeps same => ?_
      have := (live keeps).2.2.1
      omega
  | acquireLoadZero key currentIdx zero =>
      cases walk
      obtain ⟨rfl, _⟩ := aims
      refine .passed rfl within trivial fun place keeps same => ?_
      have positive := (live keeps).2.2.2
      rw [same, zero] at positive
      exact Nat.lt_irrefl 0 positive
  | acquireAgainZero key currentIdx refcount zero =>
      cases walk
      obtain ⟨rfl, _⟩ := aims
      refine .passed rfl within trivial fun place keeps same => ?_
      have positive := (live keeps).2.2.2
      rw [same, zero] at positive
      exact Nat.lt_irrefl 0 positive
  | acquireStale key currentIdx stale =>
      cases walk
      obtain ⟨rfl, version⟩ := aims
      refine .passed rfl within trivial fun place keeps same => ?_
      have current := (live keeps).1
      rw [same, version place keeps same] at current
      exact stale current
  | nextWithin currentIdx more =>
      cases walk
      exact ⟨trivial, done, done + 1, rfl, more, Nat.le_refl _, fun _ _ below => below⟩
  | nextFound idx more => exact .same walk within trivial
  | nextGone idx beyond =>
      cases walk
      refine .passed rfl within trivial fun place keeps same => ?_
      have := (live keeps).2.2.1
      omega
  | nextOccupied idx odd =>
      cases walk
      have small : done < 2 ^ 32 := Nat.lt_of_lt_of_le within (Nat.le_of_lt inv.owned.bound)
      have place := KeyData.idx_new (K := K) small (inv.versions done) odd
      have version := KeyData.version_new (K := K) small (inv.versions done) odd
      refine .same ?_ within ⟨by rw [place], fun other keeps same => ?_⟩
      · simp [Pc.walk, Getter.currentIdx, place]
      · rw [version, ← (live keeps).1, same, place]
  | nextUnoccupied idx even =>
      cases walk
      refine .passed rfl within trivial fun place keeps same => ?_
      obtain ⟨current, odd, _⟩ := live keeps
      rw [same] at current
      omega
  | _ => cases walk

omit [DecidableEq T] [Fintype T] in
/-- Fewer kept keys and more guards found, by induction on the waits. -/
theorem Pc.Aims.mono (aims : pc.Aims kept found) (fewer : ∀ place, kept' place → kept place)
    (more : ∀ key guard, found key guard → found' key guard)
    : pc.Aims kept' found' := by
  have aimsAt {key : K} {currentIdx : Nat} (aims : AimsAt kept key currentIdx) :
      AimsAt kept' key currentIdx :=
    ⟨aims.1, fun place keeps => aims.2 place (fewer place keeps)⟩
  induction pc with
  | waitForChunk _ next ih => exact ih aims
  | assertRefCount _ next ih => exact ih aims
  | assertVersion _ next ih => exact ih aims
  | getLen key getter | acquireLoad key getter | acquireCas key getter | acquireVersion key getter =>
      cases getter with
      | get owning => trivial
      | next currentIdx => exact aimsAt aims
  | ret res =>
      cases res with
      | next item currentIdx =>
          cases item with
          | none => exact fun place keeps => aims place (fewer place keeps)
          | some pair => exact ⟨aimsAt aims.1, more _ _ aims.2⟩
      | _ => trivial
  | _ => trivial

/-- A step inside `next` goes on with the iteration, by cases on the move. -/
theorem Sys.Moves.walk (moves : s.Moves dbg t s') (inv : s.Inv free)
    (present : ∀ place, kept place → (s.bound place).isSome)
    (walk : (s.pc t).walk = some (done, currentIdx)) (within : currentIdx ≤ s.len)
    (aims : (s.pc t).Aims kept found) (inside : ¬ (s.pc t).Rests)
    (unfinished : ∀ res, s.pc t ≠ .ret res) (awake : s'.pc t ≠ .unwinding)
    (finds
      : ∀ key guard,
          s'.slots = s.slots
          → guard.key = key
          → guard.pointee = (s.slots (KeyData.idx key)).data
          → (s.slots (KeyData.idx key)).version = KeyData.version key
          → found key guard)
    : (s'.pc t).WalksOn kept found s.len done := by
  cases moves with
  | stay => exact .same walk within aims
  | go pc goes =>
      rw [pc_goto_self]
      exact goes.walk inv present walk within aims inside
  | answered res pc answers =>
      rw [pc_goto_self]
      generalize s.pc t = before at *
      cases answers with
      | nextDone currentIdx beyond =>
          refine .same walk within fun place keeps => ?_
          exact Nat.lt_of_lt_of_le (inv.live_of_bound (present place keeps)).2.2.1 beyond
      | _ => cases walk
  | failed | dropPanicked => exact absurd (pc_unwind_self _ t) awake
  | linked idx old after about =>
      rw [about] at walk
      rw [pc_goto_self]
      exact .same walk within trivial
  | recycled idx old after about same =>
      rw [about] at walk
      simp only [pushExchange, pc_goto_self]
      cases after with
      | missed getter =>
          cases getter with
          | get owning => cases walk
          | next currentIdx => exact .same walk within trivial
      | _ => cases walk
  | dropped idx after about =>
      rw [about] at walk
      rw [pc_goto_self]
      cases dbg <;> exact .same walk within trivial
  | decremented idx needsDrop otherwise decrements =>
      have goes : needsDrop.WalksOn kept found s.len done
          ∧ otherwise.WalksOn kept found s.len done := by
        generalize s.pc t = before at *
        cases decrements with
        | acquire key getter =>
            cases getter with
            | get owning => cases walk
            | next currentIdx => exact ⟨.same walk within trivial, .same walk within trivial⟩
        | _ => cases walk
      rw [decRefCount]
      split
      · rw [pc_goto_self]
        exact goes.1
      · rw [pc_goto_self]
        exact goes.2
  | acquired key getter refcount about same =>
      rw [about] at walk aims
      rw [pc_goto_self]
      cases getter <;> exact .same walk within aims
  | guarded key getter about same =>
      rw [about] at walk aims
      have slots := slots_acquireCheck s t getter same
      revert finds slots
      simp only [acquireCheck, if_pos same, pc_goto_self]
      intro finds slots
      cases getter with
      | get owning => cases walk
      | next currentIdx => exact .same walk within ⟨aims, finds key _ slots rfl rfl same⟩
  | began op pc calls | beganReserve additional calls | beganDeref id guard calls
  | beganDrop id guard calls | beganForget id guard calls => exact absurd calls.rests inside
  | returned res about => exact absurd about (unfinished res)
  | popped _ _ _ about | pushed about | wrote _ _ _ about | armed _ _ _ about
  | published _ _ _ about | counted _ _ about | allocated _ _ about | installed _ _ _ about
  | deallocated _ _ about | retired _ _ about | discounted _ about | cloned _ about
  | unwound about =>
      rw [about] at walk
      cases walk

end

/-- An entry that stays keeps its value, by cases on the step. -/
theorem FiniteMap.Step.lookup {map map' : FiniteMap V} {op : Op K} {res : Res K V E}
    {place : Nat × Nat} {stored : Stored V} (step : map.Step op res map')
    (bound : map.lookup place = some stored) (stays : place ∈ map')
    : map'.lookup place = some stored := by
  cases step with
  | inserted key value absent =>
      have apart : place ≠ KeyData.place key := by
        rintro rfl
        exact absent (Finmap.mem_iff.mpr ⟨stored, bound⟩)
      rwa [Finmap.lookup_insert_of_ne map apart]
  | removed key present =>
      have apart := (Finmap.mem_erase.mp stays).1
      rwa [Finmap.lookup_erase_ne apart]
  | _ => exact bound

/-- The guard of a key is on the value that the key is bound to in one of the states. -/
def FoundIn (states : List (Sys T K V E)) (key : K) (guard : Guard K V) : Prop :=
  guard.key = key
  ∧ ∃ s ∈ states, ∃ stored,
      s.bound (KeyData.place key) = some stored ∧ guard.pointee = some stored

/-- A key that is present in all of the states. -/
def KeptIn (states : List (Sys T K V E)) (place : Nat × Nat) : Prop :=
  ∀ s ∈ states, (s.bound place).isSome

section

variable [DecidableEq T] [Fintype T] {dbg : Bool} {s s' : Sys T K V E} {t : T}
  {states call : List (Sys T K V E)} {yielded : List (Yielded T K V E)}

/-- A key that stays present across a step keeps its value. -/
theorem Sys.Calm.bound_kept (calm : Calm dbg s) (moves : s.Moves dbg t s') {place : Nat × Nat}
    {stored : Stored V} (bound : s.bound place = some stored) (stays : (s'.bound place).isSome)
    : s'.bound place = some stored := by
  obtain ⟨free, inv⟩ := calm.reachable.inv
  obtain ⟨map, _, represents⟩ := calm.reachable.explained
  rcases inv.takes (tracked_of_run calm.reachable.run) moves with
    silent | ⟨_, op, res, _, _, takes⟩
  · rwa [silent.bound]
  · obtain ⟨map', step, represents'⟩ := takes.step inv represents
    rw [← represents' place]
    obtain ⟨value, found⟩ := Option.isSome_iff_exists.mp stays
    exact step.lookup ((represents place).trans bound) (represents'.mem found)

-----------------------------------------------------------------------------------------
-- The invariant of a traversal
-----------------------------------------------------------------------------------------

/-- Where an iterator stands in a traversal: the slots that it is done with have yielded their
kept keys, in increasing order, and each guard is on the value of its key.
-/
structure Walked (t : T) (states call : List (Sys T K V E)) (yielded : List (Yielded T K V E))
    (s : Sys T K V E)
    : Prop where
  aims : (s.pc t).Aims (KeptIn states) (FoundIn call)
  position
    : ∃ done currentIdx,
        (s.pc t).walk = some (done, currentIdx)
        ∧ currentIdx ≤ s.len
        ∧ (∀ item ∈ yielded, KeyData.idx item.key < done)
        ∧ ∀ place, KeptIn states place → place.1 < done →
            ∃ item ∈ yielded, KeyData.place item.key = place
  increasing : (yielded.map fun item => KeyData.idx item.key).Pairwise (· < ·)
  found : ∀ item ∈ yielded, FoundIn item.call item.key item.guard
  during : ∀ item ∈ yielded, ∀ s ∈ item.call, s ∈ states
  running : ∀ s ∈ call, s ∈ states
  values
    : ∀ place, KeptIn states place →
        ∃ stored, ∀ s ∈ states, s.bound place = some stored

omit [Key K] [DecidableEq T] [Fintype T] in
theorem KeptIn.tail {place : Nat × Nat} (kept : KeptIn (s :: states) place) : KeptIn states place :=
  fun other member => kept other (List.mem_cons_of_mem _ member)

omit [DecidableEq T] [Fintype T] in
theorem FoundIn.cons {key : K} {guard : Guard K V} (found : FoundIn call key guard)
    : FoundIn (s :: call) key guard := by
  obtain ⟨named, other, member, bound⟩ := found
  exact ⟨named, other, List.mem_cons_of_mem _ member, bound⟩

/-- The kept keys of a longer list of states still have their values. -/
theorem Walked.values_cons (walked : Walked t (s :: states) call yielded s) (calm : s.Calm dbg)
    {actor : T} (moves : s.Moves dbg actor s') {place : Nat × Nat}
    (kept : KeptIn (s' :: s :: states) place)
    : ∃ stored, ∀ other ∈ s' :: s :: states, other.bound place = some stored := by
  obtain ⟨stored, values⟩ := walked.values place kept.tail
  refine ⟨stored, fun other member => ?_⟩
  rcases List.mem_cons.mp member with rfl | earlier
  · exact calm.bound_kept moves (values s List.mem_cons_self) (kept _ List.mem_cons_self)
  · exact values other earlier

/-- A step that yields nothing. -/
theorem Walked.advance (walked : Walked t (s :: states) call yielded s) (calm : s.Calm dbg)
    {actor : T} (moves : s.Moves dbg actor s') {call' : List (Sys T K V E)}
    (running : ∀ other ∈ call', other ∈ s' :: s :: states)
    (goes
      : ∀ done currentIdx,
          (s.pc t).walk = some (done, currentIdx)
          → currentIdx ≤ s.len
          → (s'.pc t).WalksOn (KeptIn (s' :: s :: states)) (FoundIn call') s'.len done)
    : Walked t (s' :: s :: states) call' yielded s' where
  aims := by
    obtain ⟨done, currentIdx, walk, within, _⟩ := walked.position
    exact (goes done currentIdx walk within).1
  position := by
    obtain ⟨done, currentIdx, walk, within, below, covers⟩ := walked.position
    obtain ⟨_, done', currentIdx', walk', within', later, passed⟩ :=
      goes done currentIdx walk within
    refine ⟨done', currentIdx', walk', within', fun item member => ?_, fun place kept less => ?_⟩
    · exact Nat.lt_of_lt_of_le (below item member) later
    · exact covers place kept.tail (passed place kept less)
  increasing := walked.increasing
  found := walked.found
  during := fun item member other within =>
    List.mem_cons_of_mem _ (walked.during item member other within)
  running := running
  values := fun _ kept => walked.values_cons calm moves kept

/-- What `next` has found is yielded when it returns. -/
theorem Walked.yield (walked : Walked t (s :: states) call yielded s) (calm : s.Calm dbg)
    (moves : s.Moves dbg t s') {key : K} {guard : Guard K V} {currentIdx : Nat}
    (about : s.pc t = .ret (.next (some (key, guard)) currentIdx))
    (returned : s'.pc t = .iterating currentIdx) (len : s'.len = s.len)
    : Walked t (s' :: s :: states) [] (yielded ++ [⟨key, guard, call⟩]) s' := by
  obtain ⟨done, _, walk, within, below, covers⟩ := walked.position
  have aims := walked.aims
  rw [about] at walk aims
  cases walk
  obtain ⟨⟨rfl, version⟩, found⟩ := aims
  refine ⟨by rw [returned]; trivial, ⟨_, _, by rw [returned]; rfl, ?_, ?_, ?_⟩, ?_, ?_, ?_, nofun,
    fun _ kept => walked.values_cons calm moves kept⟩
  · rw [len]
    exact within
  · intro item member
    rcases List.mem_append.mp member with earlier | now
    · exact Nat.lt_succ_of_lt (below item earlier)
    · cases List.mem_singleton.mp now
      exact Nat.lt_succ_self _
  · intro place kept less
    rcases Nat.lt_succ_iff_lt_or_eq.mp less with earlier | now
    · obtain ⟨item, member, same⟩ := covers place kept.tail earlier
      exact ⟨item, List.mem_append_left _ member, same⟩
    · refine ⟨_, List.mem_append_right _ List.mem_cons_self, ?_⟩
      exact Prod.ext now.symm (version place kept.tail now).symm
  · rw [List.map_append, List.pairwise_append]
    refine ⟨walked.increasing, List.pairwise_singleton _ _, ?_⟩
    intro idx earlier last now
    obtain ⟨item, member, rfl⟩ := List.mem_map.mp earlier
    cases List.mem_singleton.mp now
    exact below item member
  · intro item member
    rcases List.mem_append.mp member with earlier | now
    · exact walked.found item earlier
    · cases List.mem_singleton.mp now
      exact found
  · intro item member other within
    rcases List.mem_append.mp member with earlier | now
    · exact List.mem_cons_of_mem _ (walked.during item earlier other within)
    · cases List.mem_singleton.mp now
      exact List.mem_cons_of_mem _ (walked.running other within)

/-- A step of a traversal keeps the invariant. -/
theorem Walked.step (walked : Walked t (s :: states) call yielded s) (calm : s.Calm dbg)
    {actor : T} (moves : s.Moves dbg actor s')
    (inside : actor = t → (s.pc t).inside = true) (within : s.Within actor)
    (awake : s'.pc actor ≠ .unwinding)
    : Walked t (s' :: s :: states) (s' :: call) yielded s' := by
  have longer : s.len ≤ s'.len := by
    rcases moves.pushes with ⟨same, _⟩ | ⟨about, rfl⟩
    · exact Nat.le_of_eq same.symm
    · have room := within.room about
      have len : (s.pushZeroed actor).len = s.len + 1 := Nat.mod_eq_of_lt room
      omega
  have aims : (s.pc t).Aims (KeptIn (s' :: s :: states)) (FoundIn (s' :: call)) :=
    walked.aims.mono (fun _ kept => kept.tail) fun _ _ found => found.cons
  refine walked.advance calm moves ?_ fun done currentIdx walk bounded => ?_
  · intro other member
    rcases List.mem_cons.mp member with rfl | earlier
    · exact List.mem_cons_self
    · exact List.mem_cons_of_mem _ (walked.running other earlier)
  · by_cases self : actor = t
    · subst actor
      obtain ⟨free, inv⟩ := calm.reachable.inv
      have busy : ¬ (s.pc t).Rests := by
        have within := inside rfl
        rintro (idle | ⟨_, iterating⟩)
        · rw [idle] at within
          cases within
        · rw [iterating] at within
          cases within
      have unfinished (res : Res K V E) : s.pc t ≠ .ret res := by
        intro about
        have within := inside rfl
        rw [about] at within
        cases within
      have present (place : Nat × Nat) (kept : KeptIn (s' :: s :: states) place) :
          (s.bound place).isSome := kept.tail s List.mem_cons_self
      have finds (key : K) (guard : Guard K V) (slots : s'.slots = s.slots)
          (named : guard.key = key) (pointee : guard.pointee = (s.slots (KeyData.idx key)).data)
          (current : (s.slots (KeyData.idx key)).version = KeyData.version key) :
          FoundIn (s' :: call) key guard := by
        obtain ⟨stored, data, bound⟩ := inv.bound_of_current current
        refine ⟨named, s', List.mem_cons_self, stored, ?_, pointee.trans data⟩
        rw [Sys.bound_of_slots slots]
        exact bound
      obtain ⟨aims', done', currentIdx', walk', bounded', rest⟩ :=
        moves.walk inv present walk bounded aims busy unfinished awake finds
      exact ⟨aims', done', currentIdx', walk', bounded'.trans longer, rest⟩
    · have same := moves.others t (Ne.symm self)
      rw [same]
      exact .same walk (bounded.trans longer) aims

/-- Every traversal keeps the invariant, by induction on the traversal. -/
theorem Traversal.walked (traversal : Traversal dbg t states call yielded)
    : ∀ s ∈ states.head?, s.Calm dbg ∧ Walked t states call yielded s := by
  induction traversal with
  | @create s s' calm idle created =>
      rintro _ ⟨⟩
      have next : s.CalmNext dbg s' := by
        refine ⟨t, _, Sys.within_of_within? (by rw [Sys.within?, idle]), created, ?_⟩
        simp only [AtomicSlotMap.step, idle] at created
        cases created
        simp
      have calm' : s'.Calm dbg := calm.tail next
      refine ⟨calm', ?_⟩
      simp only [AtomicSlotMap.step, idle] at created
      cases created
      refine ⟨by rw [Sys.pc_goto_self]; trivial, ?_, List.Pairwise.nil, by simp, by simp, by simp, ?_⟩
      · refine ⟨0, 0, by rw [Sys.pc_goto_self]; rfl, Nat.zero_le _, by simp, fun _ _ less => ?_⟩
        exact absurd less (Nat.not_lt_zero _)
      · intro place kept
        obtain ⟨stored, bound⟩ := Option.isSome_iff_exists.mp (kept _ List.mem_cons_self)
        refine ⟨stored, fun other member => ?_⟩
        cases List.mem_singleton.mp member
        exact bound
  | @call s s' states call yielded before currentIdx about called ih =>
      rintro _ ⟨⟩
      obtain ⟨calm, walked⟩ := ih s rfl
      have moves := Sys.step_moves called
      have started : s'.pc t = .nextLen currentIdx ∧ s'.len = s.len := by
        simp only [AtomicSlotMap.step, about, Op.isNextAt, beq_self_eq_true, if_true, Sys.call]
          at called
        cases called
        exact ⟨Sys.pc_goto_self _ t _, rfl⟩
      refine ⟨calm.tail ⟨t, _, Sys.within_of_within? (by rw [Sys.within?, about]), called, ?_⟩, ?_⟩
      · simp [started.1]
      · refine walked.advance calm moves ?_ fun done currentIdx' walk bounded => ?_
        · intro other member
          cases List.mem_singleton.mp member
          exact List.mem_cons_self
        · rw [about] at walk
          rw [started.1, started.2]
          exact .same walk bounded trivial
  | @step s s' states call yielded before actor choice inside within found awake ih =>
      rintro _ ⟨⟩
      obtain ⟨calm, walked⟩ := ih s rfl
      exact ⟨calm.tail ⟨actor, choice, within, found, awake⟩,
        walked.step calm (Sys.step_moves found) inside within awake⟩
  | @yield s s' states call yielded before key guard currentIdx about returned ih =>
      rintro _ ⟨⟩
      obtain ⟨calm, walked⟩ := ih s rfl
      have moves := Sys.step_moves returned
      have rests : s'.pc t = .iterating currentIdx ∧ s'.len = s.len := by
        simp only [AtomicSlotMap.step, about] at returned
        cases Choice.eq_of_onGo returned
        rw [Sys.finish_eq]
        exact ⟨Sys.pc_goto_self _ t _, rfl⟩
      refine ⟨calm.tail ⟨t, _, Sys.within_of_within? (by rw [Sys.within?, about]), returned, ?_⟩,
        walked.yield calm moves about rests.1 rests.2⟩
      simp [rests.1]

end

open Sys in
/-- Whatever the other activities do without panics, at every point of a traversal: the indices
yielded so far are strictly increasing; the key of each yielded pair was present at some instant
of the call that yielded it, bound to the value of the guard; and `current_idx` fits in its
word. Once `next` has answered `None`, every key that has been present since the iterator was
created has been yielded exactly once, with a guard on its value.
-/
theorem traversal_yields_kept [DecidableEq T] [Fintype T] {dbg : Bool} {t : T} {s : Sys T K V E}
    {states call : List (Sys T K V E)} {yielded : List (Yielded T K V E)}
    (traversal : Traversal dbg t (s :: states) call yielded)
    : (yielded.map fun item => KeyData.idx item.key).Pairwise (· < ·)
      ∧ (∀ item ∈ yielded, FoundIn item.call item.key item.guard)
      ∧ (∃ done currentIdx, (s.pc t).walk = some (done, currentIdx) ∧ currentIdx < 2 ^ 32)
      ∧ ∀ currentIdx, s.pc t = .ret (.next none currentIdx) →
          ∀ key : K, KeptIn (s :: states) (KeyData.place key) →
            yielded.countP (fun item => KeyData.place item.key = KeyData.place key) = 1
            ∧ ∃ stored,
                (∀ before ∈ s :: states, before.bound (KeyData.place key) = some stored)
                ∧ ∀ item ∈ yielded, KeyData.place item.key = KeyData.place key →
                    item.guard.pointee = some stored := by
  obtain ⟨calm, walked⟩ := traversal.walked s rfl
  obtain ⟨free, inv⟩ := calm.reachable.inv
  obtain ⟨done, currentIdx, walk, within, _, covers⟩ := walked.position
  refine ⟨walked.increasing, walked.found, ⟨done, currentIdx, walk, ?_⟩, ?_⟩
  · exact Nat.lt_of_le_of_lt within inv.owned.bound
  intro last about key kept
  have aims := walked.aims
  rw [about] at walk aims
  cases walk
  obtain ⟨item, member, same⟩ := covers _ kept (aims _ kept)
  obtain ⟨stored, values⟩ := walked.values _ kept
  refine ⟨Nat.le_antisymm ?_ ?_, stored, values, ?_⟩
  · -- the indices are distinct
    have distinct : (yielded.map fun item => KeyData.idx item.key).Nodup :=
      walked.increasing.imp fun less => Nat.ne_of_lt less
    have once := List.nodup_iff_count_le_one.mp distinct (KeyData.idx key)
    rw [List.count, List.countP_map] at once
    refine (List.countP_mono_left fun other _ here => ?_).trans once
    exact beq_iff_eq.mpr (congrArg Prod.fst (of_decide_eq_true here))
  · exact List.countP_pos_iff.mpr ⟨item, member, decide_eq_true same⟩
  · intro other member' here
    obtain ⟨_, before, instant, value, bound, pointee⟩ := walked.found other member'
    rw [here, values before (walked.during other member' before instant)] at bound
    rw [pointee, ← bound]

/-- Activity `false` inserts two values. -/
def insertTwo : List (Bool × Choice UInt64 Nat Empty) :=
  Sys.turns false (
    [.call .tryInsertWithKey, .go, .go, .go, .go, .go, .closureOk 7] ++ List.replicate 8 .go
    ++ [.call .tryInsertWithKey, .go, .go, .go, .closureOk 8] ++ List.replicate 8 .go)

/-- Activity `true` iterates. Between its two calls of `next` activity `false` removes the key
that has been yielded, and while the second call looks at the other slot it tries to remove the
key again.
-/
def iterateMeanwhile : List (Bool × Choice UInt64 Nat Empty) :=
  Sys.turns true (.call (.next 0) :: List.replicate 10 .go)
  ++ Sys.turns false (.call (.remove ((1 : UInt64) <<< 32)) :: List.replicate 7 .go)
  ++ Sys.turns true (.call (.next 1) :: List.replicate 6 .go)
  ++ Sys.turns false (.call (.remove ((1 : UInt64) <<< 32)) :: List.replicate 4 .go)
  ++ Sys.turns true (List.replicate 4 .go ++ [.call (.next 2), .go])

/-- Whether a call of `next` has answered `None`. -/
def Pc.exhausted? : Pc K V E → Bool
  | .ret (.next none _) => true
  | _ => false

omit [Key K] in
theorem Pc.eq_exhausted {pc : Pc K V E} (checked : pc.exhausted? = true)
    : ∃ currentIdx, pc = .ret (.next none currentIdx) := by
  cases pc with
  | ret res =>
      cases res with
      | next item currentIdx =>
          cases item with
          | none => exact ⟨currentIdx, rfl⟩
          | some => cases checked
      | _ => cases checked
  | _ => cases checked

open Sys in
/-- That traversal yields both keys, and the one that stays exactly once. -/
theorem traversal_yields_kept_iterateMeanwhile
    : ∃ (states call : List (Sys Bool UInt64 Nat Empty))
          (yielded : List (Yielded Bool UInt64 Nat Empty)),
        Traversal true true states call yielded
        ∧ yielded.map (fun item => KeyData.idx item.key) = [0, 1]
        ∧ yielded.countP
              (fun item => KeyData.place item.key = KeyData.place (0x1_0000_0001 : UInt64))
            = 1 := by
  have found : ((runIf (fun s t => s.within? t && s.calm?) true
      (.withKey Bool UInt64 Nat Empty) insertTwo).bind fun s =>
        (step true s true .iterate).bind fun s' =>
          (traverse true true iterateMeanwhile [s'] [] []).map fun result =>
            (s.calm?, (s.current true).isNone && (s.pc true).walk.isNone,
              result.1.all fun s => (s.bound (KeyData.place (0x1_0000_0001 : UInt64))).isSome,
              result.1.head?.any fun s => (s.pc true).exhausted?,
              result.2.2.map fun item => KeyData.idx item.key))
      = some (true, true, true, true, [0, 1]) := by decide +kernel
  obtain ⟨s, reached, found⟩ := Option.bind_eq_some_iff.mp found
  obtain ⟨s', created, found⟩ := Option.bind_eq_some_iff.mp found
  obtain ⟨⟨states, call, yielded⟩, traversed, after⟩ := Option.map_eq_some_iff.mp found
  simp only [Prod.mk.injEq, Bool.and_eq_true] at after
  obtain ⟨calm, ⟨resting, apart⟩, kept, last, indices⟩ := after
  have calm : s.Calm true := .of_run reached calm
  have idle : s.pc true = .idle := by
    rcases (tracked_of_run calm.reachable.run).resting true (Option.isNone_iff_eq_none.mp resting)
      with idle | ⟨_, iterating⟩
    · exact idle
    · rw [iterating] at apart
      cases apart
  have traversal := (Traversal.create calm idle created).of_traverse traversed
  cases states with
  | nil => cases last
  | cons s states =>
      simp only [List.head?_cons, Option.any_some] at last
      obtain ⟨currentIdx, about⟩ := Pc.eq_exhausted last
      obtain ⟨_, _, _, complete⟩ := traversal_yields_kept traversal
      obtain ⟨once, _⟩ := complete currentIdx about (0x1_0000_0001 : UInt64)
        fun before member => List.all_eq_true.mp kept before member
      exact ⟨_, call, yielded, traversal, indices, once⟩

end AtomicSlotMap
