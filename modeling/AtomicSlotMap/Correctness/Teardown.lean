import AtomicSlotMap.Correctness.Buffers
import AtomicSlotMap.Correctness.DropOnce
import AtomicSlotMap.Implementation.Guards

/-! What the destructor of the map leaves, whatever has panicked, failed to allocate or been
forgotten before. A value is dropped once, unless its key was removed while a guard on it had been
forgotten; a buffer is deallocated once.
-/

namespace AtomicSlotMap

variable {T K V E : Type} [Key K]

/-- The value of a slot whose key is present. -/
def Phase.current : Phase T K V → Option (Stored V)
  | .live _ stored => some stored
  | _ => none

/-- Whether an event deallocates a buffer. -/
def Event.deallocates (buffer : Nat) : Event T K V → Bool
  | .deallocated _ freed => freed == some buffer
  | _ => false

namespace Sys

/-- No activity is in the map. -/
def Settled (s : Sys T K V E) : Prop := ∀ t, (s.pc t).settled = true

/-- A removed value on which a guard has been forgotten. -/
def Stranded (s : Sys T K V E) (stored : Stored V) : Prop :=
  ∃ guard ∈ s.forgotten,
    guard.pointee = some stored ∧ (s.slots (KeyData.idx guard.key)).version % 2 = 0

/-- How often a value has been dropped once the map has been, destructors included that it ran
before.
-/
def totalDrops (s : Sys T K V E) (serial : Nat) : Nat :=
  drops serial s.trace + (s.dropElements true).countP (dropsElement serial)

/-- How often a buffer has been deallocated once the map has been dropped. -/
def totalFrees (s : Sys T K V E) (buffer : Nat) : Nat :=
  s.trace.countP (·.deallocates buffer) + (s.dropChunks.map Prod.fst).count buffer

end Sys

section

variable {pc : Pc K V E} {phase : Phase T K V} {stored : Stored V}

theorem Pc.role_of_settled (settled : pc.settled = true) : pc.role = .none := by
  cases pc <;> first | rfl | cases settled

omit [Key K] in
theorem Pc.allocation_of_settled (settled : pc.settled = true) : pc.allocation = none := by
  cases pc <;> first | rfl | cases settled

omit [Key K] in
theorem Phase.content_of_current (current : phase.current = some stored)
    : phase.content = some stored := by
  cases phase <;> first | exact current | cases current

end

namespace Sys

variable [DecidableEq T] [Fintype T] {dbg : Bool} {s : Sys T K V E} {free : List Nat}

-----------------------------------------------------------------------------------------
-- Values
-----------------------------------------------------------------------------------------

/-- When nobody is in the map, nobody holds a slot. -/
theorem Inv.unnamed_of_settled (inv : s.Inv free) (settled : s.Settled) (idx : Nat) (t : T)
    : (phaseOf s.trace idx).holder ≠ some t := by
  have idle : (s.view free).role t = .none := Pc.role_of_settled (settled t)
  exact inv.owned.unnamed (idle ▸ rfl) idx

/-- A value that is in its slot when nobody is in the map is that of a present key, or it has been
removed and is stranded; by cases on the phase.
-/
theorem Inv.current_or_forgotten (inv : s.Inv free) (settled : s.Settled) (guards : s.guards = [])
    {idx : Nat} {stored : Stored V} (content : (phaseOf s.trace idx).content = some stored)
    : (phaseOf s.trace idx).current = some stored
      ∨ ((phaseOf s.trace idx).current = none
        ∧ (s.slots idx).version % 2 = 0
        ∧ ∃ guard ∈ s.forgotten, KeyData.idx guard.key = idx ∧ guard.pointee = some stored) := by
  have unnamed := inv.unnamed_of_settled settled idx
  have fits := inv.owned.slots idx
  change (s.slots idx).Fits idx _ (phaseOf s.trace idx) at fits
  cases phase : phaseOf s.trace idx with
  | live key value =>
      rw [phase] at content
      exact Or.inl content
  | retired key value remover =>
      rw [phase] at content fits
      cases content
      obtain ⟨even, _, count, positive, _⟩ := fits
      have gone : remover = none := by
        cases remover with
        | none => rfl
        | some t => exact absurd (by rw [phase]; rfl) (unnamed t)
      subst gone
      have references : 0 < (s.view free).refs idx := by simpa [count] using positive
      have roles : ∑ t, ((s.view free).role t).refs idx = 0 := by
        refine Finset.sum_eq_zero fun t _ => ?_
        rw [show (s.view free).role t = .none from Pc.role_of_settled (settled t)]
        rfl
      rw [Ownership.refs, roles, Nat.zero_add, Multiset.countP_pos] at references
      obtain ⟨guard, member, place⟩ := references
      have forgotten : guard ∈ s.forgotten := by
        simpa [view, guards] using member
      obtain ⟨_, _, occupant, _, pointee⟩ := inv.owned.guards guard member
      change (phaseOf s.trace _).occupant = _ at occupant
      rw [place, phase] at occupant
      cases occupant
      exact Or.inr ⟨rfl, even, guard, forgotten, place, pointee⟩
  | filled t | armed t | dropping t => exact absurd (by rw [phase]; rfl) (unnamed t)
  | _ =>
      rw [phase] at content
      cases content

/-- What the destructor of the map does to one slot when nobody is in it. -/
theorem Inv.drop_current (inv : s.Inv free) (placed : s.Placed) (settled : s.Settled) (idx : Nat)
    : (if (s.chunks (chunkOf idx)).isSome then (s.slots idx).drop true else none)
      = (phaseOf s.trace idx).current.map some := by
  have unnamed := inv.unnamed_of_settled settled idx
  have fits := inv.owned.slots idx
  change (s.slots idx).Fits idx _ (phaseOf s.trace idx) at fits
  cases phase : phaseOf s.trace idx with
  | live key stored =>
      rw [phase] at fits
      obtain ⟨version, _, _, data⟩ := fits
      have present : (s.chunks (chunkOf idx)).isSome := placed.values idx (by rw [data]; simp)
      have odd := KeyData.version_odd key
      simp [Slot.drop, version, odd, data, present, Phase.current]
  | held t | emptied t | filled t | armed t | dropping t =>
      exact absurd (by rw [phase]; rfl) (unnamed t)
  | unborn | free | lost | retired =>
      rw [phase] at fits
      simp [Slot.drop, fits.1, Phase.current]

/-- The destructor drops the values of the present keys. -/
theorem Inv.countP_dropElements (inv : s.Inv free) (placed : s.Placed) (settled : s.Settled)
    (serial : Nat)
    : (s.dropElements true).countP (dropsElement serial)
      = (List.range s.len).countP
          fun idx => (phaseOf s.trace idx).current.any (·.serial == serial) := by
  rw [dropElements, List.countP_filterMap]
  refine List.countP_congr fun idx _ => ?_
  rw [inv.drop_current placed settled idx]
  cases (phaseOf s.trace idx).current <;> simp [dropsElement]

/-- Once the map has been dropped a value has been dropped once, unless it is stranded. -/
theorem Inv.totalDrops (inv : s.Inv free) (placed : s.Placed) (settled : s.Settled)
    (guards : s.guards = []) {actor : T} {idx : Nat} {stored : Stored V}
    (written : .wrote actor idx stored ∈ s.trace)
    : (s.totalDrops stored.serial = 1 ∧ ¬ s.Stranded stored)
      ∨ (s.totalDrops stored.serial = 0 ∧ s.Stranded stored) := by
  have account : Accounted s.trace := inv.owned.lawful.accounted
  have once := account.once stored.serial
  have occupies {guard : Guard K V} (member : guard ∈ s.forgotten)
      (pointee : guard.pointee = some stored) :
      (phaseOf s.trace (KeyData.idx guard.key)).content = some stored := by
    obtain ⟨_, _, occupant, _, same⟩ := inv.owned.guards guard
      (Multiset.mem_coe.mpr (List.mem_append_right _ member))
    cases pointee.symm.trans same
    exact (inv.occupied occupant).2.2.1
  rw [Sys.totalDrops, inv.countP_dropElements placed settled]
  rcases Nat.eq_zero_or_pos (drops stored.serial s.trace) with none_yet | some
  · have content := account.kept actor idx stored written none_yet
    rw [none_yet, Nat.zero_add]
    have only {other : Nat} {value : Stored V}
        (current : (phaseOf s.trace other).current = Option.some value)
        (same : value.serial = stored.serial) : other = idx :=
      account.apart other idx value stored (Phase.content_of_current current) content same
    rcases inv.current_or_forgotten settled guards content with
      current | ⟨removed, even, guard, forgotten, rfl, pointee⟩
    · left
      have within : idx < s.len := inv.owned.lt_len (by
        intro unborn
        change phaseOf s.trace idx = _ at unborn
        rw [unborn] at content
        cases content)
      have here : ((List.range s.len).countP fun other =>
          (phaseOf s.trace other).current.any (·.serial == stored.serial))
          = (List.range s.len).count idx := by
        rw [List.count]
        refine List.countP_congr fun other _ => ?_
        rw [Option.any_eq_true, beq_iff_eq]
        constructor
        · rintro ⟨value, found, same⟩
          exact only found (by simpa using same)
        · rintro rfl
          exact ⟨stored, current, by simp⟩
      rw [here, List.count_eq_one_of_mem List.nodup_range (List.mem_range.mpr within)]
      refine ⟨rfl, ?_⟩
      rintro ⟨guard, member, pointee, even⟩
      have same := account.apart _ _ _ _ (occupies member pointee) content rfl
      rw [same] at even
      have fits := inv.owned.slots idx
      change (s.slots idx).Fits idx _ (phaseOf s.trace idx) at fits
      cases phase : phaseOf s.trace idx with
      | live key value =>
          rw [phase] at fits
          rw [fits.1, KeyData.version_odd key] at even
          cases even
      | _ =>
          rw [phase] at current
          cases current
    · right
      refine ⟨List.countP_eq_zero.mpr fun other _ found => ?_, guard, forgotten, pointee, even⟩
      obtain ⟨value, current, same⟩ := (Option.any_eq_true _ _).mp found
      rw [only current (by simpa using same), removed] at current
      cases current
  · left
    have gone : ((List.range s.len).countP fun other =>
        (phaseOf s.trace other).current.any (·.serial == stored.serial)) = 0 := by
      refine List.countP_eq_zero.mpr fun other _ found => ?_
      obtain ⟨value, current, same⟩ := (Option.any_eq_true _ _).mp found
      have undropped := account.present other value (Phase.content_of_current current)
      rw [show value.serial = stored.serial by simpa using same] at undropped
      omega
    refine ⟨by rw [gone]; omega, ?_⟩
    rintro ⟨guard, member, pointee, _⟩
    have undropped := account.present _ stored (occupies member pointee)
    omega

/-- Only initialised cells are dropped. -/
theorem Inv.mem_dropElements (inv : s.Inv free) (placed : s.Placed) (settled : s.Settled)
    {data : Option (Stored V)} (dropped : data ∈ s.dropElements true)
    : data.isSome = true := by
  obtain ⟨idx, _, same⟩ := List.mem_filterMap.mp dropped
  rw [inv.drop_current placed settled idx] at same
  obtain ⟨_, _, rfl⟩ := Option.map_eq_some_iff.mp same
  rfl

-----------------------------------------------------------------------------------------
-- Buffers
-----------------------------------------------------------------------------------------

/-- Whether a token is discarded. -/
def discards : Library.WriteOnce.Event T Nat → Bool
  | .discarded _ _ => true
  | _ => false

omit [Key K] [DecidableEq T] in
omit [Fintype T] in
/-- A buffer is deallocated as often as its token is discarded. -/
theorem countP_deallocates (buffer : Nat)
    : s.trace.countP (·.deallocates buffer) = (s.allocator.life buffer).countP discards := by
  rw [Library.WriteOnce.State.life, List.countP_filter]
  change _ = (s.trace.filterMap Event.allocation?).countP _
  rw [List.countP_filterMap]
  refine List.countP_congr fun event _ => ?_
  cases event with
  | deallocated actor freed =>
      cases freed <;> simp [Event.deallocates, Event.allocation?, discards, Library.WriteOnce.Event.token]
  | installed actor chunk new =>
      cases new <;> simp [Event.deallocates, Event.allocation?, discards]
  | _ => simp [Event.deallocates, Event.allocation?, discards]

omit [Key K] [DecidableEq T] in
omit [Fintype T] in
/-- Once the map has been dropped a buffer has been deallocated once, by cases on its fate. -/
theorem Buffered.totalFrees (buffered : s.Buffered) (settled : s.Settled) {buffer : Nat}
    (made : buffer < s.buffers)
    : s.totalFrees buffer = 1 := by
  have absent (gone : ∀ t chunk,
      s.allocator.life buffer ≠ [.placed t chunk buffer, .made t chunk buffer]) :
      buffer ∉ s.dropChunks.map Prod.fst := by
    intro member
    obtain ⟨⟨_, elements⟩, found, rfl⟩ := List.mem_map.mp member
    obtain ⟨t, chunk, life, _⟩ := buffered.mem_dropChunks_iff.mp found
    exact gone t chunk life
  rw [Sys.totalFrees, countP_deallocates]
  cases buffered.inv.fates buffer made with
  | pending t chunk holds life =>
      have nothing : s.allocator.holds t = none := Pc.allocation_of_settled (settled t)
      rw [nothing] at holds
      cases holds
  | placed t chunk found life =>
      have member : buffer ∈ s.dropChunks.map Prod.fst :=
        List.mem_map.mpr
          ⟨_, mem_dropChunks.mpr
            ⟨chunk, buffered.table chunk (Option.isSome_of_eq_some found), found, rfl⟩, rfl⟩
      rw [life, List.count_eq_one_of_mem buffered.nodup_dropChunks member]
      rfl
  | discarded t chunk life =>
      rw [List.count_eq_zero.mpr (absent fun _ _ placed => by rw [life] at placed; cases placed), life]
      rfl

end Sys

open Sys in
/-- In every run, whatever has panicked, failed to allocate or been forgotten: if the map is dropped
when nobody is in it and there are no guards, then each value that was ever written has been dropped
once, unless its key was removed while a guard on it had been forgotten, and then never; the
destructor drops no cell without a value; and each buffer has been deallocated once.
-/
theorem teardown_exact [DecidableEq T] [Fintype T] {dbg : Bool} {s : Sys T K V E}
    (reachable : Reachable dbg s) (settled : s.Settled) (guards : s.guards = [])
    : (∀ actor idx stored, .wrote actor idx stored ∈ s.trace →
          (s.totalDrops stored.serial = 1 ∧ ¬ s.Stranded stored)
          ∨ (s.totalDrops stored.serial = 0 ∧ s.Stranded stored))
      ∧ (∀ data ∈ s.dropElements true, data.isSome = true)
      ∧ ∀ buffer < s.buffers, s.totalFrees buffer = 1 := by
  obtain ⟨free, inv⟩ := reachable.inv
  refine ⟨fun actor idx stored written => ?_, fun data dropped => ?_, fun buffer made => ?_⟩
  · exact inv.totalDrops reachable.placed settled guards written
  · exact inv.mem_dropElements reachable.placed settled dropped
  · exact (buffered_of_run reachable.run).totalFrees settled made

/-- A single activity inserts a value, forgets a guard on it and removes the key. -/
def insertForgetRemove : List (Unit × Choice UInt64 Nat Empty) :=
  insertAndGet ++ Sys.turns () [
    .go, .call (.forgetGuard 0), .go, .call (.remove ((1 : UInt64) <<< 32)), .go, .go, .go, .go,
    .go, .go, .go
  ]

/-- After that run the value is never dropped, but its buffer is deallocated. -/
theorem teardown_exact_insertForgetRemove
    : ∃ s : Sys Unit UInt64 Nat Empty,
        s.totalDrops 3 = 0 ∧ s.Stranded ⟨3, 7⟩ ∧ s.totalFrees 0 = 1 := by
  have found : (Sys.run true (.withKey Unit UInt64 Nat Empty) insertForgetRemove).map
      (fun s => (decide (.wrote () 0 ⟨3, 7⟩ ∈ s.trace), s.totalDrops 3, s.guards,
        (s.pc ()).settled, s.buffers))
      = some (true, 0, [], true, 1) := by decide +kernel
  obtain ⟨s, reached, same⟩ := Option.map_eq_some_iff.mp found
  simp only [Prod.mk.injEq, decide_eq_true_eq] at same
  obtain ⟨written, never, guards, settled, buffers⟩ := same
  obtain ⟨values, _, freed⟩ :=
    teardown_exact (Sys.Reachable.of_run reached) (fun _ => settled) guards
  have stranded := (values () 0 ⟨3, 7⟩ written).resolve_left fun once => by
    rw [never] at once
    cases once.1
  exact ⟨s, never, stranded.2, freed 0 (by omega)⟩

end AtomicSlotMap
