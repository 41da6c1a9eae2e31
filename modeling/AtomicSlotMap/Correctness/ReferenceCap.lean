import AtomicSlotMap.Correctness.Partition
import AtomicSlotMap.History.Calls
import AtomicSlotMap.History.Records

/-! The cap on reference counts. As long as no guard is cloned above the limit, the count of a
slot covers the guards on it and a refused call leaves it alone; but `inc_ref_count_for_clone`
increments before it checks, so clones that are refused often enough wrap the count.
-/

namespace AtomicSlotMap

variable {T K V E : Type} [Key K]

namespace Sys

/-- If the activity is about to clone a guard, then the count of its slot is within the limit. -/
def Capped (s : Sys T K V E) (t : T) : Prop :=
  ∀ guard, s.pc t = .cloneInc guard →
    (s.slots (KeyData.idx guard.key)).refCount ≤ MAX_REFCOUNT

variable [DecidableEq T] [Fintype T] {dbg : Bool} {s s' s₀ : Sys T K V E} {t : T}
  {free : List Nat}

/-- A step of a call that is no insertion, and no clone above the limit. -/
def CappedStep (dbg : Bool) (s s' : Sys T K V E) : Prop :=
  ∃ t choice,
    (∀ id, s.current t ≠ some (id, .tryInsertWithKey))
    ∧ s.Capped t
    ∧ step dbg s t choice = some s'

omit [DecidableEq T] [Fintype T] in
/-- Only insertions pop the free list or push slots, so other calls stay within the limits of
those words.
-/
theorem Tracked.within (tracked : s.Tracked)
    (other : ∀ id, s.current t ≠ some (id, .tryInsertWithKey)) (capped : s.Capped t)
    : s.Within t := by
  have apart (inserts : (s.pc t).Serves .tryInsertWithKey)
      (unique : ∀ op, (s.pc t).Serves op → op = .tryInsertWithKey) : False := by
    obtain ⟨id, op, current, running⟩ := tracked.exists_running inserts.not_rests
    exact other id (unique op running.serves ▸ current)
  refine ⟨fun old next seen about _ => ?_, fun about => ?_, capped⟩
  · rw [about] at apart
    exact (apart rfl fun _ serves => serves).elim
  · rw [about] at apart
    exact (apart rfl fun _ serves => serves).elim

/-- Such runs lead from reachable states to reachable states, by induction on the run. -/
theorem Reachable.capped (reachable : Reachable dbg s₀)
    (run : Relation.ReflTransGen (CappedStep dbg) s₀ s)
    : Reachable dbg s := by
  induction run with
  | refl => exact reachable
  | tail _ last ih =>
      obtain ⟨t, choice, other, capped, found⟩ := last
      have tracked := tracked_of_run (Reachable.run ih)
      exact ih.tail ⟨t, choice, tracked.within other capped, found⟩

/-- The count of a slot covers its guards and its occupation, by cases on the phase. -/
theorem Inv.guardsOn_le (inv : s.Inv free) (idx : Nat)
    : s.guardsOn idx + (if (s.slots idx).version % 2 = 1 then 1 else 0)
      ≤ (s.slots idx).refCount := by
  have fits := inv.slot_fits idx
  cases phase : (s.view free).phase idx with
  | live key stored =>
      rw [phase] at fits
      have count := fits.2.2.1
      split <;> omega
  | retired key stored remover =>
      rw [phase] at fits
      have count := fits.2.2.1
      rw [if_neg (by have even := fits.1; omega)]
      omega
  | armed holder stored =>
      rw [phase] at fits
      have count := fits.2.1
      split <;> omega
  | unborn =>
      rw [phase] at fits
      obtain ⟨zero, _, _, unreferenced⟩ := fits
      rw [if_neg (by omega)]
      omega
  | free | held | filled | emptied | lost =>
      rw [phase] at fits
      obtain ⟨even, _, _, unreferenced⟩ := fits
      rw [if_neg (by omega)]
      omega
  | dropping holder key stored =>
      rw [phase] at fits
      obtain ⟨even, _, _, unreferenced, _⟩ := fits
      rw [if_neg (by omega)]
      omega

omit [Key K] [DecidableEq T] [Fintype T] in
/-- Changing a slot but not its count changes no count. -/
theorem refCount_of_slot {idx : Nat} {slot : Slot V}
    (slots : s'.slots = Function.update s.slots idx slot)
    (refCount : slot.refCount = (s.slots idx).refCount) (other : Nat)
    : (s'.slots other).refCount = (s.slots other).refCount := by
  rw [slots]
  by_cases same : other = idx
  · subst other
    rw [Function.update_self, refCount]
  · rw [Function.update_of_ne same]

omit [Fintype T] in
/-- A step that panics changes no count, unless it clones above the limit; by cases on the
move.
-/
theorem Moves.refCount_of_unwinding (moves : s.Moves dbg t s') (capped : s.Capped t)
    (refused : s'.pc t = .unwinding)
    : ∀ idx, (s'.slots idx).refCount = (s.slots idx).refCount := by
  have kept (same : s'.slots = s.slots) (idx : Nat) :
      (s'.slots idx).refCount = (s.slots idx).refCount := by rw [same]
  cases moves with
  | stay | go | popped | pushed | allocated | installed | deallocated | recycled | began
  | counted | discounted => exact fun _ => rfl
  | wrote | linked | dropped => exact refCount_of_slot rfl rfl
  | answered | beganReserve | beganDeref | beganDrop | beganForget =>
      exact kept (slots_answer _ t _)
  | failed => exact kept (slots_unwind s t)
  | dropPanicked place => exact refCount_of_slot (slots_unwind _ t) rfl
  | published => exact refCount_of_slot (slots_publish s t _ _ _) rfl
  | retired key current about same =>
      exact refCount_of_slot (slots_removeExchange s t same) rfl
  | guarded key getter about same => exact kept (slots_acquireCheck s t getter same)
  | returned | unwound => exact kept (alike_finish s t _).slots
  | armed idx version stored about =>
      rw [storeRefCount, pc_goto_self] at refused
      cases refused
  | acquired =>
      rw [pc_goto_self] at refused
      cases refused
  | decremented place needsDrop otherwise decrements =>
      have awake : needsDrop ≠ .unwinding ∧ otherwise ≠ .unwinding := by
        generalize s.pc t = before at decrements
        cases decrements with
        | acquire key getter => cases getter <;> exact ⟨nofun, nofun⟩
        | _ => exact ⟨nofun, nofun⟩
      rw [decRefCount] at refused
      split at refused
      · rw [pc_goto_self] at refused
        exact absurd refused awake.1
      · rw [pc_goto_self] at refused
        exact absurd refused awake.2
  | cloned guard about =>
      simp only [cloneGuard, if_pos (capped guard about), pc_goto_self] at refused
      cases refused

end Sys

-----------------------------------------------------------------------------------------
-- Refused clones
-----------------------------------------------------------------------------------------

namespace Sys

variable [DecidableEq T] [Fintype T] {dbg : Bool} {s s' : Sys T K V E} {t : T}
  {guard : Guard K V}

/-- An activity at rest and the first owning guard with an id, which another guard follows. -/
structure Cloning (s : Sys T K V E) (t : T) (guard : Guard K V) : Prop where
  rests : s.pc t = .idle
  first : s.guards.find? (fun other => other.id == guard.id && other.owning) = some guard
  old : guard.id < s.guardIds
  present : (s.chunks (chunkOf (KeyData.idx guard.key))).isSome

omit [Key K] [DecidableEq T] [Fintype T] in
/-- A guard with another id does not come in the way of the first one. -/
theorem find?_cons_of_newer {guards : List (Guard K V)} {guard newer : Guard K V}
    (first
      : guards.find? (fun other => other.id == guard.id && other.owning) = some guard)
    (old : guard.id < newer.id)
    : (newer :: guards).find? (fun other => other.id == guard.id && other.owning)
      = some guard := by
  rw [List.find?_cons_of_neg, first]
  simp only [Bool.and_eq_true, beq_iff_eq, not_and]
  omega

/-- A clone has returned or panicked, and the guard is there as before. -/
structure Cloned (s : Sys T K V E) (t : T) (guard : Guard K V) (s' : Sys T K V E) : Prop where
  ends : (∃ clone, s'.pc t = .ret (.cloned clone)) ∨ s'.pc t = .unwinding
  first : s'.guards.find? (fun other => other.id == guard.id && other.owning) = some guard
  old : guard.id < s'.guardIds
  chunks : s'.chunks = s.chunks

omit [Fintype T] in
/-- Whether it is refused or not, a clone leaves the guard there. -/
theorem cloned_of_first
    (first
      : s.guards.find? (fun other => other.id == guard.id && other.owning) = some guard)
    (old : guard.id < s.guardIds)
    : s.Cloned t guard (s.cloneGuard t guard) := by
  rw [cloneGuard]
  generalize wrappingAdd (s.slots (KeyData.idx guard.key)).refCount 1 = count
  dsimp only
  split
  · rw [answer_eq]
    exact ⟨Or.inl ⟨_, pc_goto_self _ t _⟩, find?_cons_of_newer first old,
      Nat.lt_succ_of_lt old, rfl⟩
  · refine ⟨Or.inr (pc_unwind_self _ t), ?_, ?_, ?_⟩
    all_goals rw [unwind_eq]
    · exact first
    · exact old
    · rfl

/-- The end of a clone brings its activity to rest. -/
theorem Cloned.rest (dbg : Bool) (cloned : s.Cloned t guard s')
    (present : (s.chunks (chunkOf (KeyData.idx guard.key))).isSome)
    : ∃ s'', Step dbg s' s'' ∧ s''.Cloning t guard ∧ s''.slots = s'.slots := by
  have still : (s'.chunks (chunkOf (KeyData.idx guard.key))).isSome := cloned.chunks ▸ present
  rcases cloned.ends with ⟨clone, about⟩ | about
  · refine ⟨(s'.finish t (.ret · (.cloned clone))).goto t .idle, ⟨t, .go, ?_⟩, ?_, ?_⟩
    · simp only [step, about]
      rfl
    all_goals rw [finish_eq]
    · exact ⟨pc_goto_self _ t _, cloned.first, cloned.old, still⟩
    · rfl
  · refine ⟨(s'.finish t .unwound).goto t .idle, ⟨t, .go, ?_⟩, ?_, ?_⟩
    · simp only [step, about]
      rfl
    all_goals rw [finish_eq]
    · exact ⟨pc_goto_self _ t _, cloned.first, cloned.old, still⟩
    · rfl

/-- A clone from call to end raises the count of its slot by one, around the word. -/
theorem Cloning.again (dbg : Bool) (cloning : s.Cloning t guard)
    : ∃ s', Relation.ReflTransGen (Step dbg) s s' ∧ s'.Cloning t guard
        ∧ (s'.slots (KeyData.idx guard.key)).refCount
          = wrappingAdd (s.slots (KeyData.idx guard.key)).refCount 1 := by
  let waiting : Sys T K V E := (s.begin t (.cloneGuard guard.id)).goto t
    (.waitForChunk (KeyData.idx guard.key) (.cloneInc guard))
  let arrived : Sys T K V E := waiting.goto t (.cloneInc guard)
  have first : Step dbg s waiting := by
    refine ⟨t, .call (.cloneGuard guard.id), ?_⟩
    simp only [step, cloning.rests, call, cloning.first]
    rfl
  have second : Step dbg waiting arrived := by
    refine ⟨t, .go, ?_⟩
    have about : waiting.pc t = .waitForChunk (KeyData.idx guard.key) (.cloneInc guard) :=
      pc_goto_self _ t _
    have present : (waiting.chunks (chunkOf (KeyData.idx guard.key))).isSome :=
      cloning.present
    simp only [step, about, present, ↓reduceIte]
    rfl
  have third : Step dbg arrived (arrived.cloneGuard t guard) := by
    refine ⟨t, .go, ?_⟩
    have about : arrived.pc t = .cloneInc guard := pc_goto_self _ t _
    simp only [step, about]
    rfl
  have cloned : arrived.Cloned t guard (arrived.cloneGuard t guard) :=
    cloned_of_first cloning.first cloning.old
  obtain ⟨s', last, again, slots⟩ := cloned.rest dbg cloning.present
  refine ⟨s', .head first (.head second (.head third (.single last))), again, ?_⟩
  have same : arrived.slots = s.slots := rfl
  rw [slots, slots_cloneGuard, Function.update_self, same]

/-- After any number of clones the count has gone up by as much, around the word; by induction
on that number.
-/
theorem Cloning.repeatedly (dbg : Bool) (cloning : s.Cloning t guard)
    (bound : (s.slots (KeyData.idx guard.key)).refCount < 2 ^ 32) (clones : Nat)
    : ∃ s', Relation.ReflTransGen (Step dbg) s s' ∧ s'.Cloning t guard
        ∧ (s'.slots (KeyData.idx guard.key)).refCount
          = ((s.slots (KeyData.idx guard.key)).refCount + clones) % 2 ^ 32 := by
  induction clones with
  | zero => exact ⟨s, .refl, cloning, (Nat.mod_eq_of_lt bound).symm⟩
  | succ clones ih =>
      obtain ⟨middle, run, again, count⟩ := ih
      obtain ⟨s', last, again', raised⟩ := again.again dbg
      refine ⟨s', run.trans last, again', ?_⟩
      rw [raised, count]
      simp only [wrappingAdd]
      omega

end Sys

open Sys in
/-- From any reachable state on, in every run of gets, clones, guard drops, leaks and other
calls that insert nothing, whose clones start within the limit: the count of every slot is at
least the number of guards on it, live or leaked, plus one if the slot is occupied, and it is
a word; and a call that panics leaves all counts as they were.
-/
theorem ref_count_covers_guards [DecidableEq T] [Fintype T] {dbg : Bool} {s₀ s : Sys T K V E}
    (reachable : Reachable dbg s₀) (run : Relation.ReflTransGen (CappedStep dbg) s₀ s)
    : (∀ idx,
        s.guardsOn idx + (if (s.slots idx).version % 2 = 1 then 1 else 0)
          ≤ (s.slots idx).refCount
        ∧ (s.slots idx).refCount < 2 ^ 32)
      ∧ ∀ t choice s',
          s.Capped t → step dbg s t choice = some s' → s'.pc t = .unwinding →
            ∀ idx, (s'.slots idx).refCount = (s.slots idx).refCount := by
  obtain ⟨free, inv⟩ := (reachable.capped run).inv
  refine ⟨fun idx => ⟨inv.guardsOn_le idx, inv.owned.counts idx⟩, ?_⟩
  intro t choice s' capped found refused
  exact (step_moves found).refCount_of_unwinding capped refused

/-- Whether the activity may step in a run without insertions and beyond no limit. -/
def mayStep {T : Type} (s : Sys T UInt64 Nat Empty) (t : T) : Bool :=
  s.within? t
  && match s.current t with
    | some (_, .tryInsertWithKey) => false
    | _ => true

/-- A single activity clones its guard, drops the clone and leaks the guard. -/
def cloneDropForget : List (Unit × Choice UInt64 Nat Empty) :=
  Sys.turns () (
    .call (.cloneGuard 0) :: List.replicate 3 .go
    ++ .call (.dropGuard 1) :: List.replicate 3 .go
    ++ [.call (.forgetGuard 0), .go])

open Sys in
/-- After an insertion and a get that run leaves one leaked guard and a count of two. -/
theorem ref_count_covers_guards_cloneDropForget
    : ∃ s : Sys Unit UInt64 Nat Empty,
        s.guardsOn 0 = 1
        ∧ (s.slots 0).refCount = 2
        ∧ s.guardsOn 0 + (if (s.slots 0).version % 2 = 1 then 1 else 0)
          ≤ (s.slots 0).refCount := by
  have found : ((Sys.run true (.withKey Unit UInt64 Nat Empty)
        (insertAndGet ++ Sys.turns () [.go])).bind fun s₀ =>
          (runIf mayStep true s₀ cloneDropForget).map fun s => (s₀, s)).map
        (fun (_, s) => (s.guardsOn 0, (s.slots 0).refCount)) = some (1, 2) := by
    decide +kernel
  obtain ⟨⟨s₀, s⟩, both, after⟩ := Option.map_eq_some_iff.mp found
  obtain ⟨before, reached, rest⟩ := Option.bind_eq_some_iff.mp both
  obtain ⟨final, ran, same⟩ := Option.map_eq_some_iff.mp rest
  cases same
  simp only [Prod.mk.injEq] at after
  have capped := Relation.ReflTransGen.mono (p := CappedStep true) ?_ _ _ (steps_of_runIf ran)
  · exact ⟨s, after.1, after.2,
      ((ref_count_covers_guards (Reachable.of_run reached) capped).1 0).1⟩
  · rintro before after ⟨t, choice, checked, step⟩
    simp only [mayStep, Bool.and_eq_true] at checked
    refine ⟨t, choice, fun id inserts => ?_, (within_of_within? checked.1).clone, step⟩
    rw [inserts] at checked
    cases checked.2

/-- The guard that the get of `insertAndGet` returns. -/
def firstGuard : Guard UInt64 Nat := ⟨0, (1 : UInt64) <<< 32, true, some ⟨3, 7⟩⟩

open Sys in
/-- Cloning a guard 2^32 - 2 times, refused or not, brings the count of its slot from two round
to zero while the guard still exists.
-/
theorem ref_count_wraps
    : ∃ s : Sys Unit UInt64 Nat Empty,
        Relation.ReflTransGen (Step true) (.withKey Unit UInt64 Nat Empty) s
        ∧ 0 < s.guardsOn 0
        ∧ (s.slots 0).refCount = 0 := by
  have found : (Sys.run true (.withKey Unit UInt64 Nat Empty)
      (insertAndGet ++ Sys.turns () [.go])).map
      (fun s => (s.guards, s.guardIds, (s.chunks 0).isSome, (s.slots 0).refCount,
        (s.pc ()).idle?))
      = some ([firstGuard], 1, true, 2, true) := by decide +kernel
  obtain ⟨s, reached, after⟩ := Option.map_eq_some_iff.mp found
  simp only [Prod.mk.injEq] at after
  obtain ⟨guards, ids, present, count, rests⟩ := after
  have place : KeyData.idx firstGuard.key = 0 := by decide
  have cloning : s.Cloning () firstGuard := by
    refine ⟨?_, ?_, ?_, ?_⟩
    · exact Pc.eq_idle rests
    · rw [guards]
      rfl
    · rw [ids]
      decide
    · rw [place]
      exact present
  have clone := cloning.repeatedly true
  rw [place, count] at clone
  obtain ⟨s', run, again, raised⟩ := clone (by decide) (2 ^ 32 - 2)
  refine ⟨s', (Reachable.run (.of_run reached)).trans run, ?_, raised⟩
  have member : firstGuard ∈ s'.guards := List.mem_of_find?_eq_some again.first
  refine List.countP_pos_iff.mpr ⟨firstGuard, List.mem_append_left _ member, ?_⟩
  decide

end AtomicSlotMap
