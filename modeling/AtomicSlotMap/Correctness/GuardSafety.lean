import AtomicSlotMap.Ownership.Simulation
import AtomicSlotMap.Ownership.Values

/-! Guards stay valid: a guard points at the value of the insertion that published its key,
and that value is neither dropped nor overwritten while the guard exists.
-/

namespace AtomicSlotMap

variable {T K V E : Type} [Key K]

namespace Sys

/-- The list of free slots that starts at `free_head`. -/
def FreeList (s : Sys T K V E) (free : List Nat) : Prop :=
  Library.Chain (fun idx => (s.slots idx).nextFree) SENTINEL (unpackFreeHead s.freeHead).2 free

variable [DecidableEq T] [Fintype T] {dbg : Bool} {s : Sys T K V E} {free : List Nat}

/-- No activity that could lose a slot has one that is occupied. -/
theorem Inv.unoccupied_of_holds (inv : s.Inv free) {t : T} {idx : Nat}
    (holds : (s.pc t).holds = some idx)
    : ((s.view free).phase idx).occupant = none := by
  obtain ⟨answerable, staying⟩ := Pc.role_of_holds holds
  exact (inv.owned.roles t idx (Role.slot_of_holds answerable)).unoccupied answerable staying

/-- The slot of a guard contains the guard's value, and was published with it. -/
theorem Inv.guard_occupant (inv : s.Inv free) {guard : Guard K V} (member : guard ∈ s.guards)
    : ∃ key stored,
        ((s.view free).phase (KeyData.idx guard.key)).occupant = some (key, stored)
        ∧ KeyData.version key = KeyData.version guard.key
        ∧ guard.pointee = some stored :=
  inv.owned.guards guard (Multiset.mem_coe.mpr (List.mem_append_left _ member))

/-- An occupied slot contains the value that was published in it. -/
theorem Inv.occupied (inv : s.Inv free) {idx : Nat} {key : K} {stored : Stored V}
    (occupied : ((s.view free).phase idx).occupant = some (key, stored))
    : KeyData.idx key = idx
      ∧ (s.slots idx).data = some stored
      ∧ ((s.view free).phase idx).content = some stored
      ∧ ∃ actor, .published actor key stored ∈ s.trace := by
  have fits := inv.owned.slots idx
  have told := inv.owned.lawful.told idx
  change (s.slots idx).Fits idx _ _ at fits
  change ((s.view free).phase idx).Told _ idx at told
  cases phase : (s.view free).phase idx with
  | live found value =>
      rw [phase] at occupied fits told
      cases occupied
      obtain ⟨place, actor, sublist⟩ := told
      exact ⟨place, fits.2.2.2, rfl, actor, sublist.subset List.mem_cons_self⟩
  | retired found value remover =>
      rw [phase] at occupied fits told
      cases occupied
      obtain ⟨place, remover, key', actor, _, _, sublist⟩ := told
      exact ⟨place, fits.2.2.2.2, rfl, actor,
        sublist.subset (List.mem_cons_of_mem _ List.mem_cons_self)⟩
  | _ =>
      rw [phase] at occupied
      cases occupied

end Sys

open Sys in
/-- In every reachable state a guard points at exactly the value that the insertion which
published its key wrote to its slot: the slot contains that very write, which has not been
dropped, and the slot is neither on the free list nor held by an inserter or a dropper.
-/
theorem guard_safety [DecidableEq T] [Fintype T] {dbg : Bool} {s : Sys T K V E}
    (reachable : Reachable dbg s) {guard : Guard K V} (member : guard ∈ s.guards)
    : ∃ actor key stored free,
        .published actor key stored ∈ s.trace
        ∧ KeyData.idx key = KeyData.idx guard.key
        ∧ KeyData.version key = KeyData.version guard.key
        ∧ guard.pointee = some stored
        ∧ (s.slots (KeyData.idx guard.key)).data = some stored
        ∧ drops stored.serial s.trace = 0
        ∧ s.FreeList free
        ∧ KeyData.idx guard.key ∉ free
        ∧ ∀ t, (s.pc t).holds ≠ some (KeyData.idx guard.key) := by
  obtain ⟨free, inv⟩ := reachable.inv
  obtain ⟨key, stored, occupant, version, pointee⟩ := inv.guard_occupant member
  obtain ⟨place, data, content, actor, published⟩ := inv.occupied occupant
  refine ⟨actor, key, stored, free, published, place, version, pointee, data, ?_, inv.chain,
    ?_, ?_⟩
  · exact inv.owned.lawful.accounted.present _ stored content
  · intro listed
    have isFree := (inv.owned.free _).mp listed
    rw [isFree] at occupant
    cases occupant
  · intro t holds
    rw [inv.unoccupied_of_holds holds] at occupant
    cases occupant

/-- A single activity inserts a value and gets a guard on it. -/
def insertAndGet : List (Unit × Choice UInt64 Nat Empty) :=
  [
    .call .tryInsertWithKey, .go, .go, .go, .go, .go, .closureOk 7, .go, .go, .go, .go, .go,
    .go, .go, .go, .call (.get ((1 : UInt64) <<< 32) true), .go, .go, .go, .go, .go
  ].map ((), ·)

/-- After that run the guard of the key points at the value. -/
theorem guard_safety_insertAndGet
    : ∃ s : Sys Unit UInt64 Nat Empty,
        s.guards = [⟨0, (1 : UInt64) <<< 32, true, some ⟨3, 7⟩⟩]
        ∧ (s.slots 0).data = some ⟨3, 7⟩
        ∧ ∀ t, (s.pc t).holds ≠ some 0 := by
  have found : (Sys.run true (.withKey Unit UInt64 Nat Empty) insertAndGet).map (·.guards)
      = some [⟨0, (1 : UInt64) <<< 32, true, some ⟨3, 7⟩⟩] := by decide +kernel
  obtain ⟨s, reached, guards⟩ := Option.map_eq_some_iff.mp found
  obtain ⟨actor, key, stored, free, _, _, _, pointee, data, _, _, _, unheld⟩ :=
    guard_safety (Sys.Reachable.of_run reached) (guards ▸ List.mem_cons_self)
  cases pointee
  exact ⟨s, guards, data, unheld⟩

end AtomicSlotMap
