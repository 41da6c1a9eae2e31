import AtomicSlotMap.Correctness.Insertions
import AtomicSlotMap.Correctness.KeyReuse
import AtomicSlotMap.Correctness.Partition

/-! The end of the index space. As long as `push_zeroed` finds room, it hands out each index
once and never the list end, and no insertion takes a slot in use or hides a live key; but
nothing stops it when the vector is full, and the length wraps to zero.
-/

namespace AtomicSlotMap

variable {T K V E : Type} [Key K]

namespace Sys

variable [DecidableEq T] [Fintype T] {dbg : Bool} {s s' : Sys T K V E} {t : T}
  {free : List Nat}

/-- A step of the program that pushes no slot to a full vector. -/
def RoomyStep (dbg : Bool) (s s' : Sys T K V E) : Prop :=
  ∃ t choice, (s.pc t = .pushZeroed → s.len + 1 < 2 ^ 32) ∧ step dbg s t choice = some s'

omit [Fintype T] in
/-- With room the length grows and the new index is the old length. -/
theorem Moves.roomy (moves : s.Moves dbg t s')
    (room : s.pc t = .pushZeroed → s.len + 1 < 2 ^ 32)
    : (s'.len = s.len ∧ handedOut s'.trace = handedOut s.trace)
      ∨ (s'.len = s.len + 1 ∧ s.len + 1 < 2 ^ 32
        ∧ handedOut s'.trace = s.len :: handedOut s.trace) := by
  rcases moves.pushes with kept | ⟨about, rfl⟩
  · exact Or.inl kept
  · have small := room about
    refine Or.inr ⟨?_, small, rfl⟩
    show wrappingAdd s.len 1 = s.len + 1
    exact Nat.mod_eq_of_lt small

/-- The indices are handed out one after the other, by induction on the run. -/
theorem handedOut_of_run (run : Relation.ReflTransGen (RoomyStep dbg) (.withKey T K V E) s)
    : s.len < 2 ^ 32 ∧ (handedOut s.trace).reverse = List.range s.len := by
  induction run with
  | refl => exact ⟨Nat.two_pow_pos 32, rfl⟩
  | tail _ last ih =>
      obtain ⟨t, choice, room, found⟩ := last
      rcases (step_moves found).roomy room with ⟨len, same⟩ | ⟨len, small, grown⟩
      · rw [len, same]
        exact ih
      · rw [len, grown, List.reverse_cons, ih.2, ← List.range_succ]
        exact ⟨small, rfl⟩

/-- The key is that of an occupied slot. -/
def Live (s : Sys T K V E) (key : K) : Prop :=
  (s.slots (KeyData.idx key)).version = KeyData.version key

/-- A get on the key passes each check of `SlotGuard::new`. -/
def Retrievable (s : Sys T K V E) (key : K) : Prop :=
  KeyData.idx key < s.len
  ∧ 0 < (s.slots (KeyData.idx key)).refCount
  ∧ (s.slots (KeyData.idx key)).version = KeyData.version key

/-- What insertions leave intact. -/
structure Intact (dbg : Bool) (s : Sys T K V E) : Prop where
  returned
    : ∀ id key stored, .ret id (.inserted key stored) ∈ s.history →
        KeyData.idx key ≠ SENTINEL
  /-- A slot that an activity holds is nobody else's. -/
  exclusive
    : ∀ t idx, (s.pc t).holds = some idx →
        (s.slots idx).version % 2 = 0
        ∧ s.guardsOn idx = 0
        ∧ (∀ other, (s.pc other).holds = some idx → other = t)
        ∧ ∀ free, s.FreeList free → idx ∉ free
  retrievable : ∀ key, s.Live key → s.Retrievable key
  /-- Only its removal ends the life of a key. -/
  kept
    : ∀ s' key, Next dbg s s' → s.Live key →
        s'.Live key
        ∨ ∃ actor removed,
            KeyData.place removed = KeyData.place key
            ∧ s'.trace = .retired actor removed :: s.trace

/-- A live key passes the checks. -/
theorem Inv.retrievable (inv : s.Inv free) {key : K} (live : s.Live key)
    : s.Retrievable key := by
  refine ⟨Nat.lt_of_not_le fun beyond => inv.stale_of_beyond beyond live, ?_, live⟩
  exact Nat.pos_of_ne_zero fun zero => inv.stale_of_zero zero live

/-- A slot that an activity holds has no other use. -/
theorem Inv.exclusive (inv : s.Inv free) {idx : Nat} (holds : (s.pc t).holds = some idx)
    : (s.slots idx).version % 2 = 0
      ∧ s.guardsOn idx = 0
      ∧ (∀ other, (s.pc other).holds = some idx → other = t)
      ∧ ∀ free, s.FreeList free → idx ∉ free := by
  obtain ⟨answerable, _⟩ := Pc.role_of_holds holds
  have named := (inv.owned.roles t idx (Role.slot_of_holds answerable)).holder_of_holds
    answerable
  refine ⟨inv.even_of_holds answerable, ?_, ?_, ?_⟩
  · exact inv.guardsOn_eq_zero (inv.unoccupied_of_holds holds)
  · intro other holds'
    exact inv.owned.holder_unique answerable (Pc.role_of_holds holds').1
  · intro listed list member
    rw [list.unique inv.chain] at member
    rw [(inv.owned.free idx).mp member] at named
    cases named

/-- A live key stays live unless it is removed, by the three ways to change versions. -/
theorem Inv.live_of_records (inv : s.Inv free) (records : s.Records t s') {key : K}
    (live : s.Live key)
    : s'.Live key
      ∨ ∃ actor removed,
          KeyData.place removed = KeyData.place key
          ∧ s'.trace = .retired actor removed :: s.trace := by
  rcases records.versions with same | ⟨idx, version, stored, about, rfl⟩
    | ⟨removed, current, about, same, rfl⟩
  · exact Or.inl ((same _).trans live)
  · obtain ⟨_, _, even, _⟩ := inv.publishing about
    have apart : KeyData.idx key ≠ idx := by
      intro here
      have odd := KeyData.version_odd key
      rw [← here, live] at even
      omega
    left
    rw [Live, slots_publish, Function.update_of_ne apart]
    exact live
  · have fits := inv.fits t
    rw [about] at fits
    have isVersion : current = KeyData.version removed := fits
    by_cases here : KeyData.idx removed = KeyData.idx key
    · refine Or.inr ⟨t, removed, Prod.ext here ?_, trace_removeExchange s t same⟩
      rw [here] at same
      exact isVersion.symm.trans (same.symm.trans live)
    · left
      rw [Live, slots_removeExchange s t same, Function.update_of_ne (Ne.symm here)]
      exact live

end Sys

omit [Key K] in
/-- A slot does not leave the vector, by cases on the event. -/
theorem Phase.advance_ne_unborn [DecidableEq T] {phase : Phase T K V} {event : Event T K V}
    (begun : phase ≠ .unborn)
    : phase.advance event ≠ .unborn := by
  cases event with
  | armed | retired | gaveUp | released => cases phase <;> simp_all [Phase.advance]
  | counted | discounted | allocated | installed | deallocated => exact begun
  | _ => simp [Phase.advance]

/-- What was written to is in the vector, by induction on the trace. -/
theorem Lawful.begun_of_wrote [DecidableEq T] {trace : List (Event T K V)} {actor : T}
    {idx : Nat} {stored : Stored V} (wrote : .wrote actor idx stored ∈ trace)
    : phaseOf trace idx ≠ .unborn := by
  induction trace with
  | nil => cases wrote
  | cons event earlier ih =>
      rcases List.mem_cons.mp wrote with rfl | before
      · rw [phaseOf_cons rfl, Function.update_self]
        exact nofun
      · rw [phaseOf]
        split
        · exact Phase.advance_ne_unborn (ih before)
        · exact ih before

open Sys in
/-- Every reachable state is intact. -/
theorem Sys.Reachable.intact [DecidableEq T] [Fintype T] {dbg : Bool} {s : Sys T K V E}
    (reachable : Reachable dbg s)
    : s.Intact dbg := by
  obtain ⟨free, inv⟩ := reachable.inv
  refine ⟨?_, fun t idx holds => inv.exclusive holds, fun key live => inv.retrievable live, ?_⟩
  · intro id key stored returned
    obtain ⟨op, took⟩ := (tracked_of_run reachable.run).recorded.lin_of_ret returned
    obtain ⟨actor, wrote⟩ :=
      reachable.numbered.written id op key stored (Library.mem_effects.mpr took)
    have within : KeyData.idx key < s.len := inv.owned.lt_len (Lawful.begun_of_wrote wrote)
    have bound : s.len < 2 ^ 32 := inv.owned.bound
    simp only [SENTINEL]
    omega
  · rintro s' key ⟨t, choice, _, found⟩ live
    exact inv.live_of_records (step_moves found).records live

open Sys in
/-- In every run in which no slot is pushed to a full vector, `push_zeroed` hands out each
index at most once and never the list end, and the length never decreases; and if the run is
within the other limits as well, then insertions leave everything intact.
-/
theorem full_map_intact [DecidableEq T] [Fintype T] {dbg : Bool} {s : Sys T K V E}
    (run : Relation.ReflTransGen (RoomyStep dbg) (.withKey T K V E) s)
    : (handedOut s.trace).Nodup
      ∧ SENTINEL ∉ handedOut s.trace
      ∧ (∀ s', RoomyStep dbg s s' → s.len ≤ s'.len)
      ∧ (Reachable dbg s → s.Intact dbg) := by
  obtain ⟨bound, inOrder⟩ := handedOut_of_run run
  refine ⟨?_, ?_, ?_, Reachable.intact⟩
  · rw [← List.nodup_reverse, inOrder]
    exact List.nodup_range
  · rw [← List.mem_reverse, inOrder, List.mem_range]
    simp only [SENTINEL]
    omega
  · rintro s' ⟨t, choice, room, found⟩
    rcases (step_moves found).roomy room with ⟨len, _⟩ | ⟨len, _⟩ <;> omega

theorem Sys.Reachable.roomy [DecidableEq T] [Fintype T] {dbg : Bool} {s : Sys T K V E}
    (reachable : Reachable dbg s)
    : Relation.ReflTransGen (RoomyStep dbg) (.withKey T K V E) s :=
  Relation.ReflTransGen.mono
    (fun _ _ ⟨t, choice, within, found⟩ => ⟨t, choice, within.room, found⟩) _ _ reachable

/-- After two insertions with a removal between them one index has been handed out. -/
theorem full_map_intact_insertRemoveInsert
    : ∃ s : Sys Unit UInt64 Nat Empty,
        handedOut s.trace = [0]
        ∧ SENTINEL ∉ handedOut s.trace
        ∧ s.Intact true := by
  have found : (Sys.run true (.withKey Unit UInt64 Nat Empty) insertRemoveInsert).map
      (fun s => handedOut s.trace) = some [0] := by decide +kernel
  obtain ⟨s, reached, after⟩ := Option.map_eq_some_iff.mp found
  have reachable := Sys.Reachable.of_run reached
  obtain ⟨_, apart, _, intact⟩ := full_map_intact reachable.roomy
  exact ⟨s, after, apart, intact reachable⟩

-----------------------------------------------------------------------------------------
-- Filling the vector
-----------------------------------------------------------------------------------------

namespace Sys

variable [DecidableEq T] [Fintype T] {s : Sys T K V E} {t : T}

/-- An activity at rest, an empty free list and a vector of this length. -/
structure Filled (s : Sys T K V E) (t : T) (len : Nat) : Prop where
  rests : s.pc t = .idle
  len : s.len = len
  head : (unpackFreeHead s.freeHead).2 = SENTINEL

/-- One more insertion into a filled vector returns the key of the index after the others and
makes the length one more, around the word.
-/
theorem Filled.insert {len : Nat} (filled : s.Filled t len)
    (start : Relation.ReflTransGen (Step false) (.withKey T K V E) s) (value : V)
    : ∃ s' id stored, Relation.ReflTransGen (Step false) s s'
        ∧ s'.Filled t (wrappingAdd len 1)
        ∧ .ret id (.inserted (KeyData.new len 1) stored) ∈ s'.history := by
  obtain ⟨called, first, loads, same⟩ := exists_popLoad (t := t) false filled.rests
  have empty : (unpackFreeHead called.freeHead).2 = SENTINEL := by
    rw [same.freeHead]
    exact filled.head
  obtain ⟨offered, grows, closure, present, _, _, grown⟩ :=
    (eventually_grown loads empty).exists_run
  obtain ⟨going, answered, eventually⟩ :=
    exists_inserted false closure (fun asserts => absurd asserts Bool.false_ne_true) present value
  obtain ⟨inserted, writes, ⟨stored, _, returned⟩, beside⟩ := eventually.exists_run
  rw [same.len, filled.len] at returned
  have run : Relation.ReflTransGen (Step false) s inserted :=
    .head ⟨t, _, first⟩ ((steps_of_turns grows).trans
      (.head ⟨t, _, answered⟩ (steps_of_turns writes)))
  have awake : ¬ (inserted.pc t).Rests := by
    rw [returned]
    exact (Pc.awake_of_busy rfl).2
  obtain ⟨id, op, current, _⟩ := (tracked_of_run (start.trans run)).exists_running awake
  let finished : Sys T K V E :=
    (inserted.finish t (.ret · (.inserted (KeyData.new len 1) stored))).goto t .idle
  have last : Step false inserted finished := by
    refine ⟨t, .go, ?_⟩
    simp only [step, returned]
    rfl
  have words : finished.len = inserted.len ∧ finished.freeHead = inserted.freeHead := by
    simp only [finished]
    rw [finish_eq]
    exact ⟨rfl, rfl⟩
  refine ⟨finished, id, stored, run.tail last, ⟨pc_goto_self _ t _, ?_, ?_⟩, ?_⟩
  · calc finished.len
      _ = offered.len := words.1.trans beside.len
      _ = wrappingAdd called.len 1 := grown.len
      _ = wrappingAdd len 1 := by rw [same.len, filled.len]
  · rw [words.2, beside.freeHead, grown.freeHead]
    exact empty
  · simp only [finished, finish, current]
    exact List.mem_append_right _ List.mem_cons_self

/-- As many insertions as indices fill the vector, by induction on their number. -/
theorem Filled.insertions (filled : s.Filled t 0)
    (start : Relation.ReflTransGen (Step false) (.withKey T K V E) s) (value : V) (inserts : Nat)
    (room : inserts < 2 ^ 32)
    : ∃ s', Relation.ReflTransGen (Step false) s s' ∧ s'.Filled t inserts := by
  induction inserts with
  | zero => exact ⟨s, .refl, filled⟩
  | succ inserts ih =>
      obtain ⟨middle, run, again⟩ := ih (Nat.lt_of_succ_lt room)
      obtain ⟨s', _, _, last, filled', _⟩ := again.insert (start.trans run) value
      rw [show wrappingAdd inserts 1 = inserts + 1 from Nat.mod_eq_of_lt room] at filled'
      exact ⟨s', run.trans last, filled'⟩

end Sys

open Sys in
/-- A single thread that keeps inserting: after 2^32 - 1 insertions the next one returns the
null key, index `u32::MAX` and version 1, and leaves a vector of length zero.
-/
theorem full_map_wraps
    : ∃ (s : Sys Unit UInt64 Nat Empty) (id : Nat) (key : UInt64) (stored : Stored Nat),
        Relation.ReflTransGen (Step false) (.withKey Unit UInt64 Nat Empty) s
        ∧ .ret id (.inserted key stored) ∈ s.history
        ∧ KeyData.place key = (SENTINEL, 1)
        ∧ s.len = 0 := by
  have empty : (Sys.withKey Unit UInt64 Nat Empty).Filled () 0 := ⟨rfl, rfl, by decide⟩
  obtain ⟨full, run, filled⟩ := empty.insertions .refl 7 (2 ^ 32 - 1) (by decide)
  obtain ⟨s, id, stored, last, wrapped, returned⟩ := filled.insert run 7
  refine ⟨s, id, KeyData.new (2 ^ 32 - 1) 1, stored, run.trans last, returned, ?_, ?_⟩
  · decide
  · rw [wrapped.len]
    decide

end AtomicSlotMap
