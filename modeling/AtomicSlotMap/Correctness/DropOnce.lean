import AtomicSlotMap.Correctness.Partition
import AtomicSlotMap.History.Records
import AtomicSlotMap.Ownership.Chunks

/-! Every stored value is dropped exactly once, by the activity that released its last reference
or by the destructor of the map, and its slot is put back once after the drop.
-/

namespace AtomicSlotMap

variable {T K V E : Type} [Key K]

/-- Whether the destructor of the map drops the value written as this serial number here. -/
def dropsElement (serial : Nat) (data : Option (Stored V)) : Bool :=
  data.any (·.serial == serial)

section

variable [DecidableEq T] {trace later earlier : List (Event T K V)}

/-- The earlier part of a lawful trace is lawful, by induction on the later part. -/
theorem Lawful.of_append (lawful : Lawful (later ++ earlier)) : Lawful earlier := by
  induction later with
  | nil => exact lawful
  | cons event rest ih => exact ih lawful.2

/-- A value is dropped after its key was published and removed, by the activity that released
the last reference.
-/
theorem Lawful.released_before_dropped {actor : T} {idx : Nat} {data : Option (Stored V)}
    (lawful : Lawful (later ++ .dropped actor idx data :: earlier))
    : ∃ key stored inserter remover key',
        data = some stored
        ∧ KeyData.idx key = idx
        ∧ KeyData.idx key' = idx
        ∧ KeyData.version key' = KeyData.version key
        ∧ [
            .released actor idx, .retired remover key', .published inserter key stored,
            .armed inserter idx, .wrote inserter idx stored
          ].Sublist earlier := by
  have now := lawful.of_append
  obtain ⟨key, stored, phase, rfl⟩ := now.1 idx rfl
  have told := now.2.told idx
  rw [phase] at told
  obtain ⟨place, remover, key', inserter, place', version, sublist⟩ := told
  exact ⟨key, stored, inserter, remover, key', rfl, place, place', version, sublist⟩

end

namespace Sys

variable [DecidableEq T] [Fintype T] {dbg : Bool} {s : Sys T K V E} {free : List Nat}

/-- All activities are between calls. -/
def Quiescent (s : Sys T K V E) : Prop :=
  ∀ t, s.pc t = .idle ∨ ∃ currentIdx, s.pc t = .iterating currentIdx

-----------------------------------------------------------------------------------------
-- The way of a slot after a drop
-----------------------------------------------------------------------------------------

/-- Whoever has dropped a value holds the slot until it pushes it, once. -/
theorem Inv.pushed_after_dropped (inv : s.Inv free) (nothingLost : s.NothingLost) {idx : Nat}
    {later earlier : List (Event T K V)} {actor : T} {data : Option (Stored V)}
    (events : slotTrace s.trace idx = later ++ .dropped actor idx data :: earlier)
    : (later = [] ∧ (s.pc actor).holds = some idx)
      ∨ ∃ rest,
          later = rest ++ [.recycled actor idx]
          ∧ ∀ event ∈ rest.getLast?, ∃ popper, event = .popped popper idx := by
  have succeeds := inv.owned.lawful.succeeds idx
  change (slotTrace s.trace idx).IsChain _ at succeeds
  rcases List.eq_nil_or_concat later with rfl | ⟨rest, next, rfl⟩
  · refine Or.inl ⟨rfl, ?_⟩
    have latest : .dropped actor idx data ∈ (slotTrace s.trace idx).head? := by
      rw [events]
      rfl
    obtain ⟨before, reached⟩ := phaseOf_of_latest latest
    have phase : (s.view free).phase idx = .emptied actor := reached
    exact (inv.held_by (t := actor) (by rw [phase]; rfl) (by rw [phase]; rfl)).1
  · rw [List.concat_eq_append, List.append_assoc] at events
    rw [events] at succeeds
    obtain ⟨before, now, _⟩ := List.isChain_append_cons_cons.mp succeeds
    have recycled : next = .recycled actor idx := by
      rcases now.1 actor data rfl with recycled | leaked
      · exact recycled
      · have member : next ∈ slotTrace s.trace idx := by
          rw [events]
          simp
        rw [leaked] at member
        exact absurd (List.mem_filter.mp member).1 (nothingLost actor idx)
    refine Or.inr ⟨rest, by rw [List.concat_eq_append, recycled], ?_⟩
    intro event last
    have apart := (List.isChain_append.mp before).2.2 event last next (by simp)
    exact apart.2 actor recycled

omit [Key K] [DecidableEq T] [Fintype T] in
/-- What the cell of a slot contains is the value its phase names. -/
theorem Slot.Fits.data_eq [Key K] {slot : Slot V} {idx refs : Nat} {phase : Phase T K V}
    {stored : Stored V} (fits : slot.Fits idx refs phase)
    (content : phase.content = some stored)
    : slot.data = some stored := by
  cases phase <;> simp_all [Slot.Fits, Phase.content]

/-- A written value is in its slot until it is dropped, which happens once. -/
theorem Inv.in_slot_or_dropped (inv : s.Inv free) {actor : T} {idx : Nat} {stored : Stored V}
    (written : .wrote actor idx stored ∈ s.trace)
    : (drops stored.serial s.trace = 0 ∧ (s.slots idx).data = some stored)
      ∨ drops stored.serial s.trace = 1 := by
  have account : Accounted s.trace := inv.owned.lawful.accounted
  have once := account.once stored.serial
  rcases Nat.eq_zero_or_pos (drops stored.serial s.trace) with none_yet | some
  · exact Or.inl ⟨none_yet,
      Slot.Fits.data_eq (inv.slot_fits idx) (account.kept actor idx stored written none_yet)⟩
  · exact Or.inr (by omega)

-----------------------------------------------------------------------------------------
-- The destructor of the map
-----------------------------------------------------------------------------------------

/-- At rest, without guards and without losses, slots are free or live. -/
theorem Inv.phase_at_rest (inv : s.Inv free) (quiescent : s.Quiescent)
    (nothingLost : s.NothingLost) (guards : s.guards = []) (forgotten : s.forgotten = [])
    (idx : Nat)
    : (s.view free).phase idx = .unborn
      ∨ (s.view free).phase idx = .free
      ∨ ∃ key stored, (s.view free).phase idx = .live key stored := by
  have idle (t : T) : (s.pc t).role = .none := by
    rcases quiescent t with about | ⟨_, about⟩ <;> rw [about] <;> rfl
  have unnamed (t : T) : ((s.view free).phase idx).holder ≠ some t :=
    inv.owned.unnamed (by rw [show (s.view free).role t = .none from idle t]; rfl) idx
  have noGuards : s.guardsOn idx = 0 := by
    rw [guardsOn, guards, forgotten]
    rfl
  have noFlights : s.inFlightOn idx = 0 := by
    refine Finset.card_eq_zero.mpr (Finset.filter_eq_empty_iff.mpr fun t _ => ?_)
    rcases quiescent t with about | ⟨_, about⟩ <;> rw [about] <;> exact Bool.false_ne_true
  have fits := inv.slot_fits idx
  cases phase : (s.view free).phase idx with
  | unborn => exact Or.inl rfl
  | free => exact Or.inr (Or.inl rfl)
  | live key stored => exact Or.inr (Or.inr ⟨key, stored, rfl⟩)
  | lost => exact absurd phase (inv.not_lost nothingLost idx)
  | retired key stored remover =>
      rw [phase, noGuards, noFlights] at fits
      obtain ⟨_, _, count, positive, _⟩ := fits
      cases remover with
      | none => simp at count; omega
      | some t => exact absurd (by rw [phase]; rfl) (unnamed t)
  | held t | emptied t => exact absurd (by rw [phase]; rfl) (unnamed t)
  | filled t stored | armed t stored => exact absurd (by rw [phase]; rfl) (unnamed t)
  | dropping t key stored => exact absurd (by rw [phase]; rfl) (unnamed t)

/-- What the destructor of the map does to one slot at rest. -/
theorem Inv.drop_element (inv : s.Inv free) (placed : s.Placed) (quiescent : s.Quiescent)
    (nothingLost : s.NothingLost) (guards : s.guards = []) (forgotten : s.forgotten = [])
    (idx : Nat)
    : (if (s.chunks (chunkOf idx)).isSome then (s.slots idx).drop true else none)
      = ((s.view free).phase idx).content.map some := by
  have fits := inv.slot_fits idx
  rcases inv.phase_at_rest quiescent nothingLost guards forgotten idx with
    phase | phase | ⟨key, stored, phase⟩
  · rw [phase] at fits ⊢
    simp [Slot.drop, fits.1, Phase.content]
  · rw [phase] at fits ⊢
    simp [Slot.drop, fits.1, Phase.content]
  · rw [phase] at fits ⊢
    obtain ⟨version, _, _, data⟩ := fits
    have present : (s.chunks (chunkOf idx)).isSome := placed.values idx (by rw [data]; simp)
    have odd := KeyData.version_odd key
    simp [Slot.drop, version, odd, data, present, Phase.content]

/-- At rest the destructor drops each value still in a slot once, and no other. -/
theorem Inv.count_dropElements (inv : s.Inv free) (placed : s.Placed)
    (quiescent : s.Quiescent) (nothingLost : s.NothingLost) (guards : s.guards = [])
    (forgotten : s.forgotten = []) {actor : T} {idx : Nat} {stored : Stored V}
    (written : .wrote actor idx stored ∈ s.trace)
    : drops stored.serial s.trace
        + (s.dropElements true).countP (dropsElement stored.serial)
      = 1 := by
  have account : Accounted s.trace := inv.owned.lawful.accounted
  have once := account.once stored.serial
  have elements : (s.dropElements true).countP (dropsElement stored.serial)
      = (List.range s.len).countP
          fun other => ((s.view free).phase other).content.any (·.serial == stored.serial) := by
    rw [dropElements, List.countP_filterMap]
    refine List.countP_congr fun other _ => ?_
    rw [inv.drop_element placed quiescent nothingLost guards forgotten other]
    cases ((s.view free).phase other).content <;> simp [dropsElement]
  rw [elements]
  rcases Nat.eq_zero_or_pos (drops stored.serial s.trace) with none_yet | some
  · have content : ((s.view free).phase idx).content = some stored :=
      account.kept actor idx stored written none_yet
    have within : idx < s.len := inv.owned.lt_len (by
      intro unborn
      rw [unborn] at content
      cases content)
    have here : ((List.range s.len).countP fun other =>
        ((s.view free).phase other).content.any (·.serial == stored.serial))
        = (List.range s.len).count idx := by
      rw [List.count]
      refine List.countP_congr fun other _ => ?_
      rw [Option.any_eq_true]
      constructor
      · rintro ⟨value, found, same⟩
        rw [beq_iff_eq]
        exact account.apart other idx value stored found content (by simpa using same)
      · intro same
        rw [beq_iff_eq] at same
        subst same
        exact ⟨stored, content, by simp⟩
    rw [none_yet, here, List.count_eq_one_of_mem List.nodup_range (List.mem_range.mpr within)]
  · have gone : ((List.range s.len).countP fun other =>
        ((s.view free).phase other).content.any (·.serial == stored.serial)) = 0 := by
      refine List.countP_eq_zero.mpr fun other _ found => ?_
      obtain ⟨value, content, same⟩ := (Option.any_eq_true _ _).mp found
      have undropped := account.present other value content
      rw [show value.serial = stored.serial by simpa using same] at undropped
      omega
    rw [gone]
    omega

/-- The step that puts a slot back, by the activity on record, makes it the first of the free ones.
-/
theorem Inv.freeList_of_recycled (inv : s.Inv free) {t actor : T} {choice : Choice K V E}
    {s' : Sys T K V E} {events : List (Event T K V)} {idx : Nat}
    (found : step dbg s t choice = some s') (trace : s'.trace = events ++ s.trace)
    (recycled : .recycled actor idx ∈ events)
    : actor = t ∧ s'.FreeList (idx :: free) := by
  obtain ⟨events', trace', caused⟩ := (step_moves found).causes
  obtain rfl : events = events' := List.append_cancel_right (trace.symm.trans trace')
  obtain ⟨rfl, old, after, about⟩ := caused _ recycled
  refine ⟨rfl, ?_⟩
  simp only [step, about] at found
  rcases Choice.eq_of_onWeak found with ⟨same, rfl⟩ | rfl
  · cases beq_iff_eq.mp same
    exact inv.chain_recycled about
  · -- A failed exchange has no events.
    have none : events = [] := List.self_eq_append_left.mp trace
    cases none ▸ recycled

end Sys

open Sys in
/-- In every reachable state a value has been dropped at most once; it was dropped after its key
was published and removed, by the activity that released the last reference; that activity
holds the slot until it has pushed it, once, which makes it the first of the free ones; and a value
that was not dropped is in its slot.
At rest, without guards and without calls that unwound with a slot, a value that was not
dropped is the current one of its slot, and the destructor of the map drops exactly those.
-/
theorem values_dropped_once [DecidableEq T] [Fintype T] {dbg : Bool} {s : Sys T K V E}
    (reachable : Reachable dbg s)
    : (∀ serial, drops serial s.trace ≤ 1)
      ∧ (∀ later earlier actor idx data,
          s.trace = later ++ .dropped actor idx data :: earlier →
          ∃ key stored inserter remover key',
            data = some stored
            ∧ KeyData.idx key = idx
            ∧ KeyData.idx key' = idx
            ∧ KeyData.version key' = KeyData.version key
            ∧ [
                .released actor idx, .retired remover key', .published inserter key stored,
                .armed inserter idx, .wrote inserter idx stored
              ].Sublist earlier)
      ∧ (s.NothingLost → ∀ idx later earlier actor data,
          slotTrace s.trace idx = later ++ .dropped actor idx data :: earlier →
          (later = [] ∧ (s.pc actor).holds = some idx)
          ∨ ∃ rest,
              later = rest ++ [.recycled actor idx]
              ∧ ∀ event ∈ rest.getLast?, ∃ popper, event = .popped popper idx)
      ∧ (∀ t choice s' events actor idx, step dbg s t choice = some s' →
          s'.trace = events ++ s.trace → .recycled actor idx ∈ events →
          actor = t ∧ ∀ free, s.FreeList free → s'.FreeList (idx :: free))
      ∧ (∀ actor idx stored, .wrote actor idx stored ∈ s.trace →
          (drops stored.serial s.trace = 0 ∧ (s.slots idx).data = some stored)
          ∨ drops stored.serial s.trace = 1)
      ∧ (s.NothingLost → s.Quiescent → s.guards = [] → s.forgotten = [] →
          ∀ actor idx stored, .wrote actor idx stored ∈ s.trace →
            ((s.slots idx).version % 2 = 1 ∨ drops stored.serial s.trace = 1)
            ∧ drops stored.serial s.trace
                + (s.dropElements true).countP (dropsElement stored.serial)
              = 1) := by
  obtain ⟨free, inv⟩ := reachable.inv
  have lawful : Lawful s.trace := inv.owned.lawful
  refine ⟨lawful.accounted.once, ?_, ?_, ?_, ?_, ?_⟩
  · intro later earlier actor idx data split
    exact (split ▸ lawful).released_before_dropped
  · intro nothingLost idx later earlier actor data events
    exact inv.pushed_after_dropped nothingLost events
  · intro t choice s' events actor idx found trace recycled
    obtain ⟨same, list⟩ := inv.freeList_of_recycled found trace recycled
    exact ⟨same, fun other there => there.unique inv.chain ▸ list⟩
  · intro actor idx stored written
    exact inv.in_slot_or_dropped written
  · intro nothingLost quiescent guards forgotten actor idx stored written
    refine ⟨?_, inv.count_dropElements reachable.placed quiescent nothingLost guards forgotten
      written⟩
    rcases inv.in_slot_or_dropped written with ⟨_, data⟩ | once
    · refine Or.inl ?_
      have fits := inv.slot_fits idx
      rcases inv.phase_at_rest quiescent nothingLost guards forgotten idx with
        phase | phase | ⟨key, value, phase⟩
      · rw [phase] at fits
        rw [fits.2.2.1] at data
        cases data
      · rw [phase] at fits
        rw [fits.2.2.1] at data
        cases data
      · rw [phase] at fits
        rw [fits.1]
        exact KeyData.version_odd key
    · exact Or.inr once

/-- A value is inserted, guarded and removed; then its guard is dropped. -/
def insertGetRemoveUnguard : List (Unit × Choice UInt64 Nat Empty) :=
  insertAndGet
  ++ [
    .go, .call (.remove ((1 : UInt64) <<< 32)), .go, .go, .go, .go, .go, .go, .go,
    .call (.dropGuard 0), .go, .go, .go, .go, .go, .go, .go, .go, .go, .go, .go
  ].map ((), ·)

/-- Whether an event is the loss of a slot. -/
def Event.leaks : Event T K V → Bool
  | .leaked _ _ => true
  | _ => false

/-- After that run the value has been dropped once and for all. -/
theorem values_dropped_once_insertGetRemoveUnguard
    : ∃ s : Sys Unit UInt64 Nat Empty,
        .wrote () 0 ⟨3, 7⟩ ∈ s.trace
        ∧ drops 3 s.trace + (s.dropElements true).countP (dropsElement 3) = 1 := by
  have found : (Sys.run true (.withKey Unit UInt64 Nat Empty) insertGetRemoveUnguard).map
        (fun s =>
          (decide (.wrote () 0 ⟨3, 7⟩ ∈ s.trace), s.guards, s.forgotten,
            s.trace.all (! ·.leaks), (s.pc ()).idle?))
      = some (true, [], [], true, true) := by decide +kernel
  obtain ⟨s, reached, same⟩ := Option.map_eq_some_iff.mp found
  simp only [Prod.mk.injEq, decide_eq_true_eq] at same
  obtain ⟨written, guards, forgotten, calm, atRest⟩ := same
  refine ⟨s, written, ?_⟩
  have final := (values_dropped_once (Sys.Reachable.of_run reached)).2.2.2.2.2
  refine (final ?_ ?_ guards forgotten () 0 ⟨3, 7⟩ written).2
  · intro actor idx leaked
    cases List.all_eq_true.mp calm _ leaked
  · intro t
    exact Or.inl (Pc.eq_idle atRest)

end AtomicSlotMap
