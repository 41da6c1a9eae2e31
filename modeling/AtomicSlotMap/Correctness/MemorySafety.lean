import AtomicSlotMap.Correctness.ChunkOrder
import AtomicSlotMap.Correctness.FullMap
import AtomicSlotMap.Correctness.Locations
import AtomicSlotMap.Ownership.Chunks

/-! What the unsafe code relies on. A slot that an activity or a guard refers to lies within the
vector and in an allocated chunk, whatever has panicked and whichever allocations have failed
before. A cell is written or dropped only by the one activity that may access it.
-/

namespace AtomicSlotMap

variable {T K V E : Type} [Key K]

/-- The slot that an activity has a reference to: the one it accesses next, or has accessed and may
access again.
-/
def Pc.slotRef : Pc K V E → Option Nat
  | .assertRefCount idx _ | .assertVersion idx _ => some idx
  | .popNext old _ | .popCas old _ _ => some (unpackFreeHead old).2
  | .insertVersion idx | .insertWrite idx _ _ | .insertRefCount idx _ _ | .insertPublish idx _ _
  | .pushLoad idx _ | .pushStore idx _ _ | .pushCas idx _ _ | .dropValue idx _
  | .nextVersion idx => some idx
  | .removeVersion key | .removeCas key _ | .removeDec key | .acquireLoad key _
  | .acquireCas key _ _ | .acquireVersion key _ | .acquireDec key _ | .containsVersion key =>
      some (KeyData.idx key)
  | .unguardDec guard | .cloneInc guard => some (KeyData.idx guard.key)
  | _ => none

/-- The slots that an activity waits for are within the vector, and those that it refers to are
known to be there, as are those it has waited for.
-/
def Pc.Anchored (within known : Nat → Prop) : Pc K V E → Prop
  | .waitForChunk idx next =>
      within idx ∧ next.Anchored within fun other => known other ∨ other = idx
  | .assertRefCount idx next | .assertVersion idx next => known idx ∧ next.Anchored within known
  | pc => ∀ idx, pc.slotRef = some idx → known idx

namespace Sys

/-- A slot lies within the vector, in an allocated chunk. -/
def Mapped (s : Sys T K V E) (idx : Nat) : Prop := idx < s.len ∧ s.present idx

/-- All activities wait for and refer to such slots. -/
def Anchored (s : Sys T K V E) : Prop := ∀ t, (s.pc t).Anchored (· < s.len) s.Mapped

end Sys

section

variable {dbg : Bool} {s s' : Sys T K V E} {within within' known known' : Nat → Prop}
  {pc pc' : Pc K V E}

/-- What an activity refers to is known, by cases on the program counter. -/
theorem Pc.Anchored.of_slotRef (anchored : pc.Anchored within known) {idx : Nat}
    (refers : pc.slotRef = some idx)
    : known idx := by
  cases pc with
  | assertRefCount slot next | assertVersion slot next =>
      cases refers
      exact anchored.1
  | waitForChunk => cases refers
  | _ => exact anchored idx refers

/-- Knowing more is no harm, by induction on the waits. -/
theorem Pc.Anchored.mono (anchored : pc.Anchored within known)
    (wider : ∀ idx, within idx → within' idx) (more : ∀ idx, known idx → known' idx)
    : pc.Anchored within' known' := by
  induction pc generalizing known known' with
  | waitForChunk idx next ih =>
      exact ⟨wider idx anchored.1, ih anchored.2 fun other => Or.imp_left (more other)⟩
  | assertRefCount idx next ih | assertVersion idx next ih =>
      exact ⟨more idx anchored.1, ih anchored.2 more⟩
  | _ => exact fun idx refers => more idx (anchored idx refers)

theorem Pc.anchored_exclusivelyOwned {idx : Nat} {next : Pc K V E} (there : known idx)
    (anchored : next.Anchored within known)
    : (Pc.exclusivelyOwned dbg idx next).Anchored within known := by
  cases dbg with
  | false => exact anchored
  | true => exact ⟨there, there, anchored⟩

theorem Pc.anchored_pushFreeIndex {idx : Nat} {after : AfterPush K E} (less : within idx)
    : (Pc.pushFreeIndex dbg idx after : Pc K V E).Anchored within known := by
  refine ⟨less, Pc.anchored_exclusivelyOwned (Or.inr rfl) ?_⟩
  rintro other ⟨⟩
  exact Or.inr rfl

omit [Key K] in
/-- Who refers to no slot has nothing to know. -/
theorem knows_nothing : ∀ idx, (none : Option Nat) = some idx → known idx := by
  intro idx refers
  cases refers

theorem Getter.anchored_missed (getter : Getter)
    : (getter.missed : Pc K V E).Anchored within known := by
  cases getter <;> exact nofun

theorem AfterPush.anchored_resume (after : AfterPush K E)
    : (after.resume : Pc K V E).Anchored within known := by
  cases after with
  | missed getter => exact getter.anchored_missed
  | _ => exact nofun

theorem AfterEnsure.anchored_resume (after : AfterEnsure)
    : (after.resume : Pc K V E).Anchored within known := by
  cases after with
  | pushed idx => exact knows_nothing
  | reserving chunk maxChunk =>
      simp only [AfterEnsure.resume]
      split <;> exact knows_nothing

theorem Res.anchored_rest (res : Res K V E) : res.rest.Anchored within known := by
  cases res <;> exact knows_nothing

end

namespace Sys

variable [DecidableEq T] [Fintype T] {dbg : Bool} {s s' : Sys T K V E} {free : List Nat} {t : T}
  {within known : Nat → Prop} {pc pc' : Pc K V E}

/-- What the waits and references of an activity's step rest on: what it holds, loads or is given by
a guard is within the vector, and the chunk that it has waited for is known to be there.
-/
structure Anchoring (s : Sys T K V E) (t : T) (within known : Nat → Prop) : Prop where
  held : ∀ idx, (s.pc t).role.holds = some idx → within idx
  head : (unpackFreeHead s.freeHead).2 ≠ SENTINEL → within (unpackFreeHead s.freeHead).2
  len : ∀ idx < s.len, within idx
  guards : ∀ guard ∈ s.guards, within (KeyData.idx guard.key)
  mapped : ∀ idx, known idx → within idx
  arrived : ∀ idx next, s.pc t = .waitForChunk idx next → within idx → s.present idx → known idx

omit [DecidableEq T] [Fintype T] in
theorem Anchoring.popLoop (anchoring : s.Anchoring t within known)
    : (Pc.popLoop s.freeHead s.updates : Pc K V E).Anchored within known := by
  rw [Pc.popLoop]
  split
  · exact knows_nothing
  · next more =>
    refine ⟨anchoring.head more, ?_⟩
    rintro other ⟨⟩
    exact Or.inr rfl

omit [DecidableEq T] [Fintype T] in
/-- A move of a program counter keeps to such slots, by cases on the move. -/
theorem Anchoring.goes (anchoring : s.Anchoring t within known) (goes : pc.Goes dbg s pc')
    (about : s.pc t = pc) (anchored : pc.Anchored within known)
    : pc'.Anchored within known := by
  cases goes with
  | arrived idx next present =>
      refine anchored.2.mono (fun _ => id) fun other known => ?_
      rcases known with known | rfl
      · exact known
      · exact anchoring.arrived _ _ about anchored.1 present
  | unreferenced | unoccupied => exact anchored.2
  | popLoad | popAgain => exact anchoring.popLoop
  | closureOk idx version value =>
      have less : within idx := anchoring.held idx (about ▸ rfl)
      refine ⟨less, Pc.anchored_exclusivelyOwned (Or.inr rfl) ?_⟩
      rintro other ⟨⟩
      exact Or.inr rfl
  | ensurePresent chunk after => exact after.anchored_resume
  | removeFound _ less | getFound _ _ less | containsFound _ less | nextFound _ less =>
      refine ⟨anchoring.len _ less, ?_⟩
      rintro other ⟨⟩
      exact Or.inr rfl
  | popNext | pushLoad | pushAgain | removeCurrent | removeAgain | acquireLoad | acquireAgain
  | acquireStale => exact anchored
  | _ => exact knows_nothing

omit [DecidableEq T] [Fintype T] in
theorem Anchoring.answers (anchoring : s.Anchoring t within known) {res : Res K V E}
    (answers : pc.Answers dbg s res pc') (about : s.pc t = pc)
    (anchored : pc.Anchored within known)
    : pc'.Anchored within known := by
  cases answers with
  | closureErr idx version err =>
      have holds : (s.pc t).role.holds = some idx := about ▸ rfl
      exact Pc.anchored_pushFreeIndex (anchoring.held idx holds)
  | acquireStale => exact anchored
  | _ => exact knows_nothing

omit [DecidableEq T] [Fintype T] in
theorem Anchoring.starts (anchoring : s.Anchoring t within known) {op : Op K}
    (starts : op.Starts s pc)
    : pc.Anchored within known := by
  cases starts with
  | cloneGuard id guard member =>
      refine ⟨anchoring.guards guard member, ?_⟩
      rintro other ⟨⟩
      exact Or.inr rfl
  | _ => exact knows_nothing

omit [DecidableEq T] [Fintype T] in
theorem Anchoring.decrements (anchoring : s.Anchoring t within known)
    {needsDrop otherwise : Pc K V E} {idx : Nat} (decrements : pc.Decrements idx needsDrop otherwise)
    (anchored : pc.Anchored within known)
    : needsDrop.Anchored within known ∧ otherwise.Anchored within known := by
  cases decrements with
  | remove key => exact ⟨anchored, knows_nothing⟩
  | acquire key getter => exact ⟨anchored, getter.anchored_missed⟩
  | unguard guard =>
      refine ⟨⟨anchoring.mapped _ (anchored _ rfl), ?_⟩, knows_nothing⟩
      rintro other ⟨⟩
      exact Or.inr rfl

omit [DecidableEq T] [Fintype T] in
/-- The activity that moves keeps to such slots, by cases on where it goes. -/
theorem Leads.anchored (leads : s.Leads dbg t pc) (anchoring : s.Anchoring t within known)
    (mine : (s.pc t).Anchored within known)
    : pc.Anchored within known := by
  have waiting {idx : Nat} {next : Pc K V E} (less : within idx)
      (refers : ∀ known : Nat → Prop, known idx → next.Anchored within known) :
      (Pc.waitForChunk idx next).Anchored within known :=
    ⟨less, refers _ (Or.inr rfl)⟩
  cases leads with
  | stay => exact mine
  | go pc goes => exact anchoring.goes goes rfl mine
  | answered res pc answers => exact anchoring.answers answers rfl mine
  | popped old next seen about =>
      rw [about] at mine
      have there := mine _ rfl
      refine Pc.anchored_exclusivelyOwned there
        (waiting (anchoring.mapped _ there) fun _ known => ?_)
      rintro other ⟨⟩
      exact known
  | wrote idx version stored about | armed idx version stored about
  | acquired key getter _ about | linked idx old after about | retired key current about =>
      rw [about] at mine
      exact mine
  | dropped idx after about =>
      rw [about] at mine
      exact Pc.anchored_pushFreeIndex (anchoring.mapped _ (mine _ rfl))
  | ensured after => exact after.anchored_resume
  | recycled idx old after => exact after.anchored_resume
  | released idx needsDrop otherwise decrements => exact (anchoring.decrements decrements mine).1
  | gaveUp idx needsDrop otherwise decrements => exact (anchoring.decrements decrements mine).2
  | began op pc calls starts => exact anchoring.starts starts
  | beganDrop id guard calls found =>
      have member := List.mem_of_find?_eq_some found
      refine waiting (anchoring.guards guard member) fun _ known => ?_
      rintro other ⟨⟩
      exact known
  | returned res => exact res.anchored_rest
  | _ => exact knows_nothing

theorem Inv.within_of_guard (inv : s.Inv free) {guard : Guard K V}
    (member : guard ∈ s.guards ∨ guard ∈ s.forgotten)
    : KeyData.idx guard.key < s.len := by
  refine inv.owned.lt_len fun unborn => ?_
  obtain ⟨_, _, occupant, _⟩ := inv.owned.guards guard
    (Multiset.mem_coe.mpr (List.mem_append.mpr member))
  rw [unborn] at occupant
  cases occupant

/-- The steps of the program rest on it. -/
theorem Inv.anchoring (inv : s.Inv free) : s.Anchoring t (· < s.len) s.Mapped where
  held _ holds := inv.owned.holds_lt_len holds
  head more := by
    have listed := (inv.owned.free _).mp (inv.chain.head_eq_or_mem.resolve_left more)
    exact inv.owned.lt_len fun unborn => by
      rw [listed] at unborn
      cases unborn
  len _ less := less
  guards _ member := inv.within_of_guard (Or.inl member)
  mapped _ mapped := mapped.1
  arrived _ _ _ less present := ⟨less, present⟩

omit [Fintype T] in
/-- A step keeps the activities to such slots if it shortens nothing and the one that moves refers
to such slots before it changes the vector.
-/
theorem Anchored.advance (anchored : s.Anchored) (grown : s.len ≤ s'.len)
    (present : ∀ idx, s.present idx → s'.present idx)
    (others : ∀ other, other ≠ t → s'.pc other = s.pc other)
    (mine : (s'.pc t).Anchored (· < s.len) s.Mapped)
    : s'.Anchored := by
  have wider (idx : Nat) (less : idx < s.len) : idx < s'.len := Nat.lt_of_lt_of_le less grown
  have more (idx : Nat) (mapped : s.Mapped idx) : s'.Mapped idx :=
    ⟨wider idx mapped.1, present idx mapped.2⟩
  intro other
  by_cases self : other = t
  · exact self ▸ mine.mono wider more
  · rw [others other self]
    exact (anchored other).mono wider more

omit [Fintype T] in
/-- The vector never gets shorter while there is room for one more index. -/
theorem Moves.len_le (moves : s.Moves dbg t s') (within : s.Within t) : s.len ≤ s'.len := by
  rcases moves.pushes with ⟨len, _⟩ | ⟨about, rfl⟩
  · exact Nat.le_of_eq len.symm
  · have grown : wrappingAdd s.len 1 = s.len + 1 := Nat.mod_eq_of_lt (within.room about)
    exact Nat.le_of_lt (Nat.lt_of_lt_of_eq (Nat.lt_succ_self _) grown.symm)

omit [Fintype T] in
/-- A chunk that is there remains there. -/
theorem Moves.present (moves : s.Moves dbg t s') {idx : Nat} (present : s.present idx)
    : s'.present idx := by
  obtain ⟨buffer, found⟩ := Option.isSome_iff_exists.mp present
  exact Option.isSome_of_eq_some (moves.chunks_of_some found)

/-- Every activity keeps to such slots in every reachable state, by induction on the run. -/
theorem Reachable.anchored (reachable : Reachable dbg s) : s.Anchored := by
  induction reachable with
  | refl => exact fun _ => nofun
  | tail earlier last ih =>
      obtain ⟨free, inv⟩ := Reachable.inv earlier
      obtain ⟨t, choice, within, found⟩ := last
      have moves := step_moves found
      exact ih.advance (moves.len_le within) (fun _ => moves.present) moves.others
        (moves.leads.anchored inv.anchoring (ih t))

/-- A slot of the vector whose chunk is there has a cell in that chunk, for good. -/
theorem Mapped.cell {idx : Nat} (mapped : s.Mapped idx) (bound : s.len < 2 ^ 32)
    : ∃ chunk offset buffer,
        getLocation idx = (chunk, offset)
        ∧ chunk < CHUNKS
        ∧ offset < chunkCapacity chunk
        ∧ ∀ s', Relation.ReflTransGen (Step dbg) s s' → s'.chunks chunk = some buffer := by
  have small : idx < 2 ^ 32 := Nat.lt_trans mapped.1 bound
  obtain ⟨buffer, found⟩ := Option.isSome_iff_exists.mp mapped.2
  exact ⟨_, _, buffer, rfl, chunkOf_lt small, getLocation_mem_cells small,
    fun s' run => chunks_of_run run found⟩

/-- The slot of a guard is such a slot. -/
theorem Inv.mapped_of_guard (inv : s.Inv free) (placed : s.Placed) {guard : Guard K V}
    (member : guard ∈ s.guards ∨ guard ∈ s.forgotten)
    : s.Mapped (KeyData.idx guard.key) := by
  refine ⟨inv.within_of_guard member, placed.values _ ?_⟩
  obtain ⟨_, _, occupant, _⟩ := inv.owned.guards guard
    (Multiset.mem_coe.mpr (List.mem_append.mpr member))
  rw [(inv.occupied occupant).2.1]
  exact Option.some_ne_none _

end Sys

open Sys in
/-- In every reachable state, whatever has panicked or failed to allocate, a slot that an activity
or a guard refers to is an element of the vector, and its cell lies in a chunk that is there and
that no later step moves or frees.
-/
theorem references_in_bounds [DecidableEq T] [Fintype T] {dbg : Bool} {s : Sys T K V E}
    (reachable : Reachable dbg s) {idx : Nat}
    (referred
      : (∃ t, (s.pc t).slotRef = some idx)
        ∨ ∃ guard, (guard ∈ s.guards ∨ guard ∈ s.forgotten) ∧ KeyData.idx guard.key = idx)
    : idx < s.len
      ∧ ∃ chunk offset buffer,
          getLocation idx = (chunk, offset)
          ∧ chunk < CHUNKS
          ∧ offset < chunkCapacity chunk
          ∧ ∀ s', Relation.ReflTransGen (Step dbg) s s' → s'.chunks chunk = some buffer := by
  obtain ⟨free, inv⟩ := reachable.inv
  have mapped : s.Mapped idx := by
    rcases referred with ⟨t, refers⟩ | ⟨guard, member, rfl⟩
    · exact (reachable.anchored t).of_slotRef refers
    · exact inv.mapped_of_guard reachable.placed member
  exact ⟨mapped.1, mapped.cell inv.owned.bound⟩

/-- A single activity inserts a value, gets a guard on it and removes the key. -/
def insertGetRetire : List (Unit × Choice UInt64 Nat Empty) :=
  insertAndGet ++ [
    .go, .call (.remove ((1 : UInt64) <<< 32)), .go, .go, .go, .go
  ].map ((), ·)

/-- At the end of that run the remover refers to slot 0, whose cell is in the first chunk. -/
theorem references_in_bounds_insertGetRetire
    : ∃ s : Sys Unit UInt64 Nat Empty,
        (s.pc ()).slotRef = some 0
        ∧ 0 < s.len
        ∧ ∃ chunk offset buffer,
            getLocation 0 = (chunk, offset)
            ∧ chunk < CHUNKS
            ∧ offset < chunkCapacity chunk
            ∧ ∀ s', Relation.ReflTransGen (Sys.Step true) s s' → s'.chunks chunk = some buffer := by
  have found : (Sys.run true (.withKey Unit UInt64 Nat Empty) insertGetRetire).map
      (fun s => (s.pc ()).slotRef) = some (some 0) := by decide +kernel
  obtain ⟨s, reached, refers⟩ := Option.map_eq_some_iff.mp found
  exact ⟨s, refers, references_in_bounds (Sys.Reachable.of_run reached) (Or.inl ⟨(), refers⟩)⟩

-----------------------------------------------------------------------------------------
-- Cells
-----------------------------------------------------------------------------------------

/-- The cell that an activity writes to next, or whose content it drops. -/
def Pc.accesses : Pc K V E → Option Nat
  | .insertWrite idx _ _ | .dropValue idx _ => some idx
  | _ => none

/-- What an activity at such an access relies on: nobody else has access to the cell of the slot. -/
structure Sys.Private [Fintype T] (s : Sys T K V E) (t : T) (idx : Nat) : Prop where
  guards : ∀ guard, guard ∈ s.guards ∨ guard ∈ s.forgotten → KeyData.idx guard.key ≠ idx
  holders : ∀ other, (s.pc other).holds = some idx → other = t
  references : s.inFlightOn idx = 0
  refCount : (s.slots idx).refCount = 0
  version : (s.slots idx).version % 2 = 0
  unlisted : ∀ free, s.FreeList free → idx ∉ free

namespace Sys

variable [DecidableEq T] [Fintype T] {dbg : Bool} {s : Sys T K V E} {free : List Nat} {t : T}

/-- A slot that is held, with no reference to it, is private. -/
theorem Inv.private_of_holds (inv : s.Inv free) {idx : Nat} (holds : (s.pc t).holds = some idx)
    (refCount : (s.slots idx).refCount = 0) (refs : (s.view free).refs idx = 0)
    : s.Private t idx := by
  obtain ⟨version, guards, holders, unlisted⟩ := inv.exclusive holds
  rw [refs_view, guards, Nat.zero_add] at refs
  refine ⟨fun guard member place => ?_, holders, refs, refCount, version, unlisted⟩
  have none := List.countP_eq_zero.mp guards guard (List.mem_append.mpr member)
  exact none (beq_iff_eq.mpr place)

end Sys

open Sys in
/-- In every reachable state, whatever has panicked or failed to allocate, the activity that writes
to a cell or drops its content is the only one with access to it: there is neither a guard on the
slot nor another reference to it. What is written to is empty, so that no value is overwritten, and
what is dropped is a value that has not been dropped before.
-/
theorem cell_access_private [DecidableEq T] [Fintype T] {dbg : Bool} {s : Sys T K V E}
    (reachable : Reachable dbg s) {t : T} {idx : Nat} (accesses : (s.pc t).accesses = some idx)
    : s.Private t idx
      ∧ ((∃ version value, s.pc t = .insertWrite idx version value)
            ∧ (s.slots idx).data = none
        ∨ (∃ after, s.pc t = .dropValue idx after)
            ∧ ∃ stored, (s.slots idx).data = some stored ∧ drops stored.serial s.trace = 0) := by
  obtain ⟨free, inv⟩ := reachable.inv
  cases about : s.pc t with
  | insertWrite slot version value =>
      rw [about] at accesses
      cases accesses
      have vacant : (s.pc t).role.vacant idx := about ▸ rfl
      obtain ⟨_, refCount, data, refs⟩ := inv.owned.slot_vacant (t := t) vacant
      exact ⟨inv.private_of_holds (about ▸ rfl) refCount refs, Or.inl ⟨⟨_, _, rfl⟩, data⟩⟩
  | dropValue slot after =>
      rw [about] at accesses
      cases accesses
      obtain ⟨key, stored, phase⟩ := inv.owned.phase_dropping
        (show (s.pc t).role = .dropping idx from about ▸ rfl)
      have fits := inv.owned.slots idx
      rw [phase] at fits
      obtain ⟨_, _, refCount, refs, data⟩ := fits
      refine ⟨inv.private_of_holds (about ▸ rfl) refCount refs, Or.inr ⟨⟨_, rfl⟩, stored, data, ?_⟩⟩
      exact inv.owned.lawful.accounted.present idx stored (congrArg Phase.content phase)
  | _ =>
      rw [about] at accesses
      cases accesses

/-- A single activity inserts a value and removes it, up to the drop of the value. -/
def insertAndDrop : List (Unit × Choice UInt64 Nat Empty) :=
  insertAndGet.take 15 ++ [
    .call (.remove ((1 : UInt64) <<< 32)), .go, .go, .go, .go, .go
  ].map ((), ·)

/-- At the end of that run the remover drops the value of slot 0, and nobody else has access. -/
theorem cell_access_private_insertAndDrop
    : ∃ s : Sys Unit UInt64 Nat Empty,
        (s.pc ()).accesses = some 0
        ∧ s.Private () 0
        ∧ ((∃ version value, s.pc () = .insertWrite 0 version value) ∧ (s.slots 0).data = none
          ∨ (∃ after, s.pc () = .dropValue 0 after)
            ∧ ∃ stored, (s.slots 0).data = some stored ∧ drops stored.serial s.trace = 0) := by
  have found : (Sys.run true (.withKey Unit UInt64 Nat Empty) insertAndDrop).map
      (fun s => (s.pc ()).accesses) = some (some 0) := by decide +kernel
  obtain ⟨s, reached, accesses⟩ := Option.map_eq_some_iff.mp found
  exact ⟨s, accesses, cell_access_private (Sys.Reachable.of_run reached) accesses⟩

end AtomicSlotMap
