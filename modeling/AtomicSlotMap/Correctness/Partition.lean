import AtomicSlotMap.Correctness.GuardSafety

/-! Every slot of the vector is in exactly one situation: free, held by one activity, live, or
removed but still referenced. The debug assertions about exclusive ownership never fail.
-/

namespace AtomicSlotMap

variable {T K V E : Type} [Key K]

/-- Whether an activity has a reference to the slot at `idx` in flight: the temporary one of a
get before its answer or its decrement, or the one of a guard that is being dropped.
-/
def Pc.inFlight (idx : Nat) : Pc K V E → Bool
  | .waitForChunk _ next | .assertRefCount _ next | .assertVersion _ next => next.inFlight idx
  | .acquireVersion key _ | .acquireDec key _ => KeyData.idx key == idx
  | .unguardDec guard => guard.on idx
  | _ => false

/-- Whether a remove has changed the version of the slot at `idx` and not yet decremented. -/
def Pc.retires (idx : Nat) : Pc K V E → Bool
  | .waitForChunk _ next | .assertRefCount _ next | .assertVersion _ next => next.retires idx
  | .removeDec key => KeyData.idx key == idx
  | _ => false

/-- Whether an inserter is between its two stores `ref_count` and `version`. -/
def Pc.publishes : Pc K V E → Bool
  | .waitForChunk _ next | .assertRefCount _ next | .assertVersion _ next => next.publishes
  | .insertPublish .. => true
  | _ => false

namespace Sys

/-- The guards on a slot, leaked ones included. -/
def guardsOn (s : Sys T K V E) (idx : Nat) : Nat :=
  (s.guards ++ s.forgotten).countP (·.on idx)

variable [Fintype T]

/-- The references to a slot that are in flight. -/
def inFlightOn (s : Sys T K V E) (idx : Nat) : Nat :=
  (Finset.univ.filter fun t => (s.pc t).inFlight idx).card

/-- The removes on a slot between the version and the decrement. -/
def retiringOn (s : Sys T K V E) (idx : Nat) : Nat :=
  (Finset.univ.filter fun t => (s.pc t).retires idx).card

end Sys

-----------------------------------------------------------------------------------------
-- Situations
-----------------------------------------------------------------------------------------

/-- Where a slot of the vector can be. -/
inductive Situation
  | free
  | held
  | live
  | removed
deriving DecidableEq

/-- What each situation means, in terms of the words of the slot, the free list, the guards
and the program counters.
-/
def Sys.Is [Fintype T] (s : Sys T K V E) (free : List Nat) (idx : Nat) : Situation → Prop
  | .free => free.count idx = 1 ∧ (s.slots idx).version % 2 = 0 ∧ (s.slots idx).refCount = 0
  | .held =>
      (s.slots idx).version % 2 = 0
      ∧ ∃ t,
          (s.pc t).holds = some idx
          ∧ (∀ other, (s.pc other).holds = some idx → other = t)
          ∧ (s.slots idx).refCount
              = if (s.pc t).publishes then 1 + s.inFlightOn idx else 0
  | .live =>
      (s.slots idx).version % 2 = 1
      ∧ (s.slots idx).refCount = 1 + s.guardsOn idx + s.inFlightOn idx
  | .removed =>
      (s.slots idx).version % 2 = 0
      ∧ (s.slots idx).refCount = s.guardsOn idx + s.inFlightOn idx + s.retiringOn idx
      ∧ 0 < (s.slots idx).refCount
      ∧ s.retiringOn idx ≤ 1

/-- References in flight are those of the roles, by induction on the waits. -/
theorem Pc.refs_role (idx : Nat) (pc : Pc K V E)
    : pc.role.refs idx = if pc.inFlight idx then 1 else 0 := by
  induction pc with
  | waitForChunk _ next ih => exact ih
  | assertRefCount _ next ih => exact ih
  | assertVersion _ next ih => exact ih
  | ensureLoad chunk after => cases after <;> rfl
  | ensureAlloc chunk after => cases after <;> rfl
  | ensureCas chunk new after => cases after <;> rfl
  | ensureDealloc new after => cases after <;> rfl
  | pushLoad held after => cases after <;> rfl
  | pushStore held old after => cases after <;> rfl
  | pushCas held old after => cases after <;> rfl
  | _ => simp [role, inFlight, Role.refs, Guard.on]

/-- An activity that is answerable for a slot, and not as a remover, would lose it by
unwinding; by induction on the waits.
-/
theorem Pc.holds_of_role {pc : Pc K V E} {idx : Nat} (answerable : pc.role.holds = some idx)
    (staying : pc.retires idx = false)
    : pc.holds = some idx := by
  induction pc with
  | waitForChunk _ next ih => exact ih answerable staying
  | assertRefCount _ next ih => exact ih answerable staying
  | assertVersion _ next ih => exact ih answerable staying
  | ensureLoad chunk after => cases after <;> exact answerable
  | ensureAlloc chunk after => cases after <;> exact answerable
  | ensureCas chunk new after => cases after <;> exact answerable
  | ensureDealloc new after => cases after <;> exact answerable
  | pushLoad held after => cases after <;> exact answerable
  | pushStore held old after => cases after <;> exact answerable
  | pushCas held old after => cases after <;> exact answerable
  | _ => simp_all [role, holds, retires, Role.holds]

/-- Removers between version and decrement are those of the retiring role. -/
theorem Pc.retires_iff {pc : Pc K V E} {idx : Nat}
    : pc.retires idx = true ↔ ∃ key, pc.role = .retiring key ∧ KeyData.idx key = idx := by
  induction pc with
  | waitForChunk _ next ih => exact ih
  | assertRefCount _ next ih => exact ih
  | assertVersion _ next ih => exact ih
  | ensureLoad chunk after => cases after <;> simp [retires, role, AfterEnsure.role]
  | ensureAlloc chunk after => cases after <;> simp [retires, role, AfterEnsure.role]
  | ensureCas chunk new after => cases after <;> simp [retires, role, AfterEnsure.role]
  | ensureDealloc new after => cases after <;> simp [retires, role, AfterEnsure.role]
  | pushLoad held after => cases after <;> simp [retires, role, AfterPush.role]
  | pushStore held old after => cases after <;> simp [retires, role, AfterPush.role]
  | pushCas held old after => cases after <;> simp [retires, role, AfterPush.role]
  | _ => simp [retires, role]

/-- Publishers are those of the armed role. -/
theorem Pc.publishes_iff {pc : Pc K V E} {idx : Nat} (holds : pc.holds = some idx)
    : pc.publishes = true ↔ ∃ stored, pc.role = .armed idx stored := by
  induction pc with
  | waitForChunk _ next ih => exact ih holds
  | assertRefCount _ next ih => exact ih holds
  | assertVersion _ next ih => exact ih holds
  | ensureLoad chunk after => cases after <;> simp [publishes, role, AfterEnsure.role]
  | ensureAlloc chunk after => cases after <;> simp [publishes, role, AfterEnsure.role]
  | ensureCas chunk new after => cases after <;> simp [publishes, role, AfterEnsure.role]
  | ensureDealloc new after => cases after <;> simp [publishes, role, AfterEnsure.role]
  | pushLoad held after => cases after <;> simp [publishes, role, AfterPush.role]
  | pushStore held old after => cases after <;> simp [publishes, role, AfterPush.role]
  | pushCas held old after => cases after <;> simp [publishes, role, AfterPush.role]
  | _ => simp_all [publishes, role, Pc.holds]

namespace Sys

variable [DecidableEq T] [Fintype T] {dbg : Bool} {s : Sys T K V E} {free : List Nat}

omit [DecidableEq T] in
/-- The references of the ownership state are the guards and those in flight. -/
theorem refs_view (s : Sys T K V E) (free : List Nat) (idx : Nat)
    : (s.view free).refs idx = s.guardsOn idx + s.inFlightOn idx := by
  have flights : (∑ t, ((s.view free).role t).refs idx) = s.inFlightOn idx := by
    rw [inFlightOn, Finset.card_filter]
    exact Finset.sum_congr rfl fun t _ => Pc.refs_role idx (s.pc t)
  have guards : (s.view free).guards.countP (fun guard => KeyData.idx guard.key = idx)
      = s.guardsOn idx := by
    rw [guardsOn, view, Multiset.coe_countP]
    exact List.countP_congr fun guard _ => by simp [Guard.on]
  rw [Ownership.refs, flights, guards, Nat.add_comm]

/-- A remover between version and decrement is the one that the phase names. -/
theorem Inv.retires_iff (inv : s.Inv free) {t : T} {idx : Nat}
    : (s.pc t).retires idx = true
      ↔ ∃ key stored, (s.view free).phase idx = .retired key stored (some t) := by
  rw [Pc.retires_iff]
  constructor
  · rintro ⟨key, role, place⟩
    have fits := inv.owned.roles t idx (show (s.pc t).role.slot = _ by rw [role, ← place]; rfl)
    rwa [show (s.view free).role t = .retiring key from role] at fits
  · rintro ⟨key, stored, phase⟩
    have holds := inv.owned.holders t idx (by rw [phase]; rfl)
    have fits := inv.owned.roles t idx (Role.slot_of_holds holds)
    change (s.pc t).role.holds = some idx at holds
    change (s.pc t).role.Fits t _ at fits
    rw [phase] at fits
    cases role : (s.pc t).role with
    | retiring key' =>
        rw [role] at holds
        exact ⟨key', rfl, Option.some.inj holds⟩
    | _ =>
        rw [role] at fits holds
        simp_all [Role.Fits, Role.holds]

/-- At most one remove is between the version and the decrement of a slot. -/
theorem Inv.retiringOn_eq (inv : s.Inv free) (idx : Nat)
    : s.retiringOn idx
      = match (s.view free).phase idx with
        | .retired _ _ (some _) => 1
        | _ => 0 := by
  rw [retiringOn]
  cases phase : (s.view free).phase idx with
  | retired key stored remover =>
      cases remover with
      | some t =>
          refine Finset.card_eq_one.mpr ⟨t, Finset.ext fun other => ?_⟩
          simp only [Finset.mem_filter, Finset.mem_univ, true_and, Finset.mem_singleton,
            inv.retires_iff, phase]
          grind
      | none =>
          refine Finset.card_eq_zero.mpr (Finset.filter_eq_empty_iff.mpr fun other _ => ?_)
          simp [inv.retires_iff, phase]
  | _ =>
      refine Finset.card_eq_zero.mpr (Finset.filter_eq_empty_iff.mpr fun other _ => ?_)
      simp [inv.retires_iff, phase]

end Sys

-----------------------------------------------------------------------------------------
-- Situations and phases
-----------------------------------------------------------------------------------------

/-- The situation of a slot in each phase. -/
def Phase.situation : Phase T K V → Option Situation
  | .free => some .free
  | .held _ | .filled _ _ | .armed _ _ | .dropping _ _ _ | .emptied _ => some .held
  | .live _ _ => some .live
  | .retired _ _ _ => some .removed
  | .unborn | .lost => none

/-- A phase that names an activity other than a remover is a held one. -/
theorem Role.Fits.situation {role : Role K V} {t : T} {phase : Phase T K V} {idx : Nat}
    (fits : role.Fits t phase) (holds : role.holds = some idx)
    (staying : ∀ key, role ≠ .retiring key)
    : phase.situation = some .held := by
  cases role with
  | reserved _ => exact congrArg Phase.situation (show phase = .held t from fits)
  | filled _ stored => exact congrArg Phase.situation (show phase = .filled t stored from fits)
  | armed _ stored => exact congrArg Phase.situation (show phase = .armed t stored from fits)
  | retiring key => exact absurd rfl (staying key)
  | dropping _ =>
      obtain ⟨key, stored, rfl⟩ := fits
      rfl
  | emptied _ => exact congrArg Phase.situation (show phase = .emptied t from fits)
  | _ => cases holds

namespace Sys

variable [DecidableEq T] [Fintype T] {dbg : Bool} {s : Sys T K V E} {free : List Nat}

/-- Whoever a held slot's phase names holds it, and nobody else does. -/
theorem Inv.held_by (inv : s.Inv free) {t : T} {idx : Nat}
    (named : ((s.view free).phase idx).holder = some t)
    (situation : ((s.view free).phase idx).situation = some .held)
    : (s.pc t).holds = some idx ∧ ∀ other, (s.pc other).holds = some idx → other = t := by
  have answerable := inv.owned.holders t idx named
  refine ⟨Pc.holds_of_role answerable ?_, ?_⟩
  · refine Bool.eq_false_iff.mpr fun retires => ?_
    obtain ⟨key, stored, phase⟩ := inv.retires_iff.mp retires
    rw [phase] at situation
    cases situation
  · intro other holds
    exact inv.owned.holder_unique answerable (Pc.role_of_holds holds).1

/-- The holder of a slot publishes it in the armed phase. -/
theorem Inv.publishes_iff (inv : s.Inv free) {t : T} {idx : Nat}
    (holds : (s.pc t).holds = some idx)
    : (s.pc t).publishes = true ↔ ∃ stored, (s.view free).phase idx = .armed t stored := by
  obtain ⟨answerable, _⟩ := Pc.role_of_holds holds
  have fits := inv.owned.roles t idx (Role.slot_of_holds answerable)
  change (s.pc t).role.Fits t _ at fits
  rw [Pc.publishes_iff holds]
  constructor
  · rintro ⟨stored, role⟩
    rw [role] at fits
    exact ⟨stored, fits⟩
  · rintro ⟨stored, phase⟩
    rw [phase] at fits
    cases role : (s.pc t).role with
    | armed held value =>
        rw [role] at answerable
        cases answerable
        exact ⟨value, rfl⟩
    | _ =>
        rw [role] at fits answerable
        simp_all [Role.Fits, Role.holds]

omit [DecidableEq T] in
/-- A slot that is not occupied has no guards. -/
theorem Inv.guardsOn_eq_zero [DecidableEq T] (inv : s.Inv free) {idx : Nat}
    (unoccupied : ((s.view free).phase idx).occupant = none)
    : s.guardsOn idx = 0 := by
  refine List.countP_eq_zero.mpr fun guard member on => ?_
  have place : KeyData.idx guard.key = idx := by simpa [Guard.on] using on
  obtain ⟨key, stored, occupied, _⟩ := inv.owned.guards guard (Multiset.mem_coe.mpr member)
  rw [place, unoccupied] at occupied
  cases occupied

/-- The words of the slots in terms of guards and references in flight. -/
theorem Inv.slot_fits (inv : s.Inv free) (idx : Nat)
    : (s.slots idx).Fits idx (s.guardsOn idx + s.inFlightOn idx)
        ((s.view free).phase idx) := by
  rw [← refs_view s free idx]
  exact inv.owned.slots idx

/-- A slot is held if its phase names a holder, with the count that goes with it. -/
theorem Inv.is_held (inv : s.Inv free) {t : T} {idx : Nat}
    (named : ((s.view free).phase idx).holder = some t)
    (situation : ((s.view free).phase idx).situation = some .held)
    (even : (s.slots idx).version % 2 = 0)
    (count
      : (∃ stored, (s.view free).phase idx = .armed t stored)
          ∧ (s.slots idx).refCount = 1 + s.inFlightOn idx
        ∨ (¬ ∃ stored, (s.view free).phase idx = .armed t stored)
          ∧ (s.slots idx).refCount = 0)
    : s.Is free idx .held := by
  obtain ⟨holds, unique⟩ := inv.held_by named situation
  refine ⟨even, t, holds, unique, ?_⟩
  rw [← inv.publishes_iff holds] at count
  rcases count with ⟨publishes, count⟩ | ⟨waits, count⟩
  · rw [if_pos publishes, count]
  · rw [if_neg waits, count]

/-- No slot is lost unless a call unwound with it. -/
theorem Inv.not_lost (inv : s.Inv free) (nothingLost : s.NothingLost) (idx : Nat)
    : (s.view free).phase idx ≠ .lost := by
  intro phase
  have told := inv.owned.lawful.told idx
  change ((s.view free).phase idx).Told s.trace idx at told
  rw [phase] at told
  obtain ⟨actor, leaked⟩ := told
  exact nothingLost actor idx leaked

/-- The situation of a slot is that of its phase. -/
theorem Inv.is_of_situation (inv : s.Inv free) {idx : Nat} {situation : Situation}
    (found : ((s.view free).phase idx).situation = some situation)
    : s.Is free idx situation := by
  have fits := inv.slot_fits idx
  have retiring := inv.retiringOn_eq idx
  cases phase : (s.view free).phase idx with
  | unborn | lost =>
      rw [phase] at found
      cases found
  | free =>
      rw [phase] at found fits
      cases found
      exact ⟨List.count_eq_one_of_mem inv.owned.nodup ((inv.owned.free idx).mpr phase),
        fits.1, fits.2.1⟩
  | held t | emptied t =>
      rw [phase] at fits
      rw [phase] at found
      cases found
      refine inv.is_held (t := t) (by rw [phase]; rfl) (by rw [phase]; rfl) fits.1
        (Or.inr ⟨?_, fits.2.1⟩)
      rw [phase]
      simp
  | filled t stored =>
      rw [phase] at fits
      rw [phase] at found
      cases found
      refine inv.is_held (t := t) (by rw [phase]; rfl) (by rw [phase]; rfl) fits.1
        (Or.inr ⟨?_, fits.2.1⟩)
      rw [phase]
      simp
  | dropping t key stored =>
      rw [phase] at fits
      rw [phase] at found
      cases found
      refine inv.is_held (t := t) (by rw [phase]; rfl) (by rw [phase]; rfl) fits.1
        (Or.inr ⟨?_, fits.2.2.1⟩)
      rw [phase]
      simp
  | armed t stored =>
      have unguarded : s.guardsOn idx = 0 := inv.guardsOn_eq_zero (by rw [phase]; rfl)
      rw [phase] at fits
      rw [phase] at found
      cases found
      refine inv.is_held (t := t) (by rw [phase]; rfl) (by rw [phase]; rfl) fits.1
        (Or.inl ⟨⟨stored, phase⟩, ?_⟩)
      have count := fits.2.1
      omega
  | live key stored =>
      rw [phase] at fits
      rw [phase] at found
      cases found
      obtain ⟨version, _, count, _⟩ := fits
      refine ⟨?_, by omega⟩
      rw [version]
      exact KeyData.version_odd key
  | retired key stored remover =>
      rw [phase] at fits retiring
      rw [phase] at found
      cases found
      obtain ⟨even, _, count, positive, _⟩ := fits
      refine ⟨even, ?_, positive, ?_⟩
      · cases remover
        · simp_all
        · simp_all
          omega
      · cases remover <;> simp_all

/-- A slot is only in the situation of its phase. -/
theorem Inv.situation_of_is (inv : s.Inv free) {idx : Nat} {situation : Situation}
    (found : s.Is free idx situation)
    : ((s.view free).phase idx).situation = some situation := by
  have fits := inv.slot_fits idx
  cases situation with
  | free =>
      have listed : idx ∈ free := List.count_pos_iff.mp (by rw [found.1]; omega)
      rw [(inv.owned.free idx).mp listed]
      rfl
  | held =>
      obtain ⟨_, t, holds, _⟩ := found
      obtain ⟨answerable, staying⟩ := Pc.role_of_holds holds
      exact (inv.owned.roles t idx (Role.slot_of_holds answerable)).situation answerable staying
  | live =>
      obtain ⟨key, stored, phase⟩ := inv.owned.live_of_version idx rfl found.1
      rw [phase]
      rfl
  | removed =>
      obtain ⟨even, count, positive, _⟩ := found
      have retiring := inv.retiringOn_eq idx
      cases phase : (s.view free).phase idx with
      | retired key stored remover => rfl
      | live key stored =>
          rw [phase] at fits
          have odd := KeyData.version_odd key
          rw [← fits.1] at odd
          omega
      | _ =>
          rw [phase] at fits retiring
          simp only [Slot.Fits] at fits retiring
          omega

end Sys

open Sys in
/-- In every reachable state in which no call has unwound with a slot, every slot of the vector
is in exactly one situation. In every reachable state the assertions that a slot is exclusively
owned hold wherever they are checked.
-/
theorem slot_partition [DecidableEq T] [Fintype T] {dbg : Bool} {s : Sys T K V E}
    (reachable : Reachable dbg s)
    : (∃ free,
        s.FreeList free
        ∧ (s.NothingLost → ∀ idx < s.len, ∃! situation, s.Is free idx situation))
      ∧ (∀ t idx next, s.pc t = .assertRefCount idx next → (s.slots idx).refCount = 0)
      ∧ ∀ t idx next, s.pc t = .assertVersion idx next → (s.slots idx).version % 2 = 0 := by
  obtain ⟨free, inv⟩ := reachable.inv
  refine ⟨⟨free, inv.chain, ?_⟩, ?_, ?_⟩
  · intro nothingLost idx within
    have begun : (s.view free).phase idx ≠ .unborn := fun unborn =>
      Nat.not_le_of_lt within ((inv.owned.born idx).mp unborn)
    have known : ∃ situation, ((s.view free).phase idx).situation = some situation := by
      cases phase : (s.view free).phase idx with
      | unborn => exact absurd phase begun
      | lost => exact absurd phase (inv.not_lost nothingLost idx)
      | _ => exact ⟨_, rfl⟩
    obtain ⟨situation, found⟩ := known
    refine ⟨situation, inv.is_of_situation found, fun other is => ?_⟩
    exact Option.some.inj ((inv.situation_of_is is).symm.trans found)
  · intro t idx next about
    have fits := inv.fits t
    rw [about] at fits
    exact (inv.owned.slot_vacant (t := t) (show (s.pc t).role.vacant idx by
      rw [about]; exact fits.1)).2.1
  · intro t idx next about
    have fits := inv.fits t
    rw [about] at fits
    exact (inv.owned.slot_vacant (t := t) (show (s.pc t).role.vacant idx by
      rw [about]; exact fits.1)).1

/-- After an insertion and a get, slot 0 is live and nothing else. -/
theorem slot_partition_insertAndGet
    : ∃ (s : Sys Unit UInt64 Nat Empty) (free : List Nat),
        s.len = 1 ∧ s.FreeList free ∧ ∃! situation, s.Is free 0 situation := by
  have found : (Sys.run true (.withKey Unit UInt64 Nat Empty) insertAndGet).map
        (fun s => (s.len, s.trace.all fun event =>
          match event with
          | .leaked _ _ => false
          | _ => true))
      = some (1, true) := by decide +kernel
  obtain ⟨s, reached, same⟩ := Option.map_eq_some_iff.mp found
  obtain ⟨len, calm⟩ := Prod.mk.inj same
  obtain ⟨⟨free, list, partition⟩, _⟩ := slot_partition (Sys.Reachable.of_run reached)
  refine ⟨s, free, len, list, partition ?_ 0 (by omega)⟩
  intro actor idx leaked
  have lost := List.all_eq_true.mp calm _ leaked
  cases lost

end AtomicSlotMap
