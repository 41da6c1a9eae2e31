import AtomicSlotMap.Library.Simulation
import AtomicSlotMap.Ownership.Protocol

/-! The invariant of the ownership protocol. Phases, roles, guards and slot words agree:
the reference count of a slot is the map's reference plus those of guards and activities.
-/

namespace AtomicSlotMap

variable {T K V E : Type} [Key K]

/-- The activity a phase names. -/
def Phase.holder : Phase T K V → Option T
  | .held holder | .filled holder _ | .armed holder _ | .dropping holder _ _
  | .emptied holder => some holder
  | .retired _ _ remover => remover
  | _ => none

/-- The key and value of a slot that has been published and not yet released. -/
def Phase.occupant : Phase T K V → Option (K × Stored V)
  | .live key stored | .retired key stored _ => some (key, stored)
  | _ => none

/-- The slot a role makes the activity answerable for. -/
def Role.holds : Role K V → Option Nat
  | .reserved idx | .filled idx _ | .armed idx _ | .dropping idx | .emptied idx => some idx
  | .retiring key => some (KeyData.idx key)
  | _ => Option.none

/-- A guard agrees with the phase of its slot. -/
def Guard.Fits (guard : Guard K V) (phase : Phase T K V) : Prop :=
  ∃ key stored,
    phase.occupant = some (key, stored)
    ∧ KeyData.version key = KeyData.version guard.key
    ∧ guard.pointee = some stored

/-- The role of an activity agrees with the phase of the slot it is about. -/
def Role.Fits (t : T) (phase : Phase T K V) : Role K V → Prop
  | .none => True
  | .reserved _ => phase = .held t
  | .filled _ stored => phase = .filled t stored
  | .armed _ stored => phase = .armed t stored
  | .retiring _ => ∃ key stored, phase = .retired key stored (some t)
  | .temp _ => phase.shared
  | .unguarding guard => guard.Fits phase
  | .dropping _ => ∃ key stored, phase = .dropping t key stored
  | .emptied _ => phase = .emptied t

/-- The words of a slot agree with its phase and the references to it. -/
def Slot.Fits (slot : Slot V) (idx refs : Nat) : Phase T K V → Prop
  | .unborn => slot.version = 0 ∧ slot.refCount = 0 ∧ slot.data = none ∧ refs = 0
  | .free | .held _ | .emptied _ | .lost =>
      slot.version % 2 = 0 ∧ slot.refCount = 0 ∧ slot.data = none ∧ refs = 0
  | .filled _ stored =>
      slot.version % 2 = 0 ∧ slot.refCount = 0 ∧ slot.data = some stored ∧ refs = 0
  | .armed _ stored =>
      slot.version % 2 = 0 ∧ slot.refCount = 1 + refs ∧ slot.data = some stored
  | .live key stored =>
      slot.version = KeyData.version key ∧ KeyData.idx key = idx
      ∧ slot.refCount = 1 + refs ∧ slot.data = some stored
  | .retired key stored remover =>
      slot.version % 2 = 0 ∧ KeyData.idx key = idx
      ∧ slot.refCount = (if remover.isSome then 1 else 0) + refs ∧ 0 < slot.refCount
      ∧ slot.data = some stored
  | .dropping _ key stored =>
      slot.version % 2 = 0 ∧ KeyData.idx key = idx ∧ slot.refCount = 0 ∧ refs = 0
      ∧ slot.data = some stored

theorem Role.refs_eq_zero {role : Role K V} {idx : Nat} (other : role.slot ≠ some idx)
    : role.refs idx = 0 := by
  cases role <;> simp_all [Role.slot, Role.refs]

/-- An activity that holds a slot without a value is answerable for it. -/
theorem Role.holds_of_vacant {role : Role K V} {idx : Nat} (vacant : role.vacant idx)
    : role.holds = some idx := by
  cases role <;> simp_all [Role.vacant, Role.holds]

theorem Role.slot_of_holds {role : Role K V} {idx : Nat} (holds : role.holds = some idx)
    : role.slot = some idx := by
  cases role <;> simp_all [Role.slot, Role.holds]

namespace Ownership

variable [DecidableEq T] [Fintype T]

/-- What holds of every state of the protocol. -/
structure Inv (w : Ownership T K V) : Prop where
  roles : ∀ t idx, (w.role t).slot = some idx → (w.role t).Fits t (w.phase idx)
  holders : ∀ t idx, (w.phase idx).holder = some t → (w.role t).holds = some idx
  guards : ∀ guard ∈ w.guards, guard.Fits (w.phase (KeyData.idx guard.key))
  free : ∀ idx, idx ∈ w.free ↔ w.phase idx = .free
  nodup : w.free.Nodup
  born : ∀ idx, w.phase idx = .unborn ↔ w.len ≤ idx
  slots : ∀ idx, (w.slots idx).Fits idx (w.refs idx) (w.phase idx)
  counts : ∀ idx, (w.slots idx).refCount < 2 ^ 32
  bound : w.len < 2 ^ 32
  lawful : Lawful w.trace

theorem Inv.empty : (Ownership.empty T K V).Inv where
  roles := by simp [Ownership.empty, Role.slot]
  holders := by simp [Ownership.empty, phase, phaseOf, Phase.holder]
  guards := by simp [Ownership.empty]
  free := by simp [Ownership.empty, phase, phaseOf]
  nodup := by simp [Ownership.empty]
  born := by simp [Ownership.empty, phase, phaseOf]
  slots := by simp [Ownership.empty, phase, phaseOf, Slot.Fits, Slot.zeroed, refs, Role.refs]
  counts := by simp [Ownership.empty, Slot.zeroed]
  bound := by simp [Ownership.empty]
  lawful := trivial

/-- The references to a slot after an activity changed its role. -/
theorem refs_update {w w' : Ownership T K V} {t : T} {role : Role K V}
    (roles : w'.role = Function.update w.role t role) (idx : Nat)
    : w'.refs idx + (w.role t).refs idx
        + w.guards.countP (fun guard => KeyData.idx guard.key = idx)
      = w.refs idx + role.refs idx
        + w'.guards.countP (fun guard => KeyData.idx guard.key = idx) := by
  have total := Library.total_update w.role t role (Role.refs idx)
  simp only [refs, roles]
  omega

/-- One activity changes its role, one slot and its phase. The conditions only look at that
slot, at the roles and guards there, and at the bookkeeping of the free list.
-/
theorem Inv.transition {w w' : Ownership T K V} (inv : w.Inv) (t : T) (idx : Nat)
    (role : Role K V) (phase : Phase T K V) (slot : Slot V)
    (roles : w'.role = Function.update w.role t role)
    (slots : w'.slots = Function.update w.slots idx slot)
    (phases : w'.phase = Function.update w.phase idx phase)
    (old : (w.role t).slot = none ∨ (w.role t).slot = some idx)
    (new : role.slot = none ∨ role.slot = some idx)
    (fits : role.slot = some idx → role.Fits t phase)
    (others : ∀ other ≠ t, (w.role other).slot = some idx → (w.role other).Fits other phase)
    (holder
      : ∀ other, phase.holder = some other →
          (other = t ∧ role.holds = some idx)
          ∨ (other ≠ t ∧ (w.phase idx).holder = some other))
    (guards
      : ∀ guard ∈ w'.guards,
          (KeyData.idx guard.key ≠ idx ∧ guard ∈ w.guards)
          ∨ (KeyData.idx guard.key = idx ∧ guard.Fits phase))
    (counted
      : ∀ other ≠ idx,
          w'.guards.countP (fun guard => KeyData.idx guard.key = other)
          = w.guards.countP (fun guard => KeyData.idx guard.key = other))
    (free : ∀ other, other ∈ w'.free ↔ if other = idx then phase = .free else other ∈ w.free)
    (nodup : w'.free.Nodup)
    (born : ∀ other, w'.len ≤ other ↔ if other = idx then phase = .unborn else w.len ≤ other)
    (slotFits : slot.Fits idx (w'.refs idx) phase)
    (count : slot.refCount < 2 ^ 32) (bound : w'.len < 2 ^ 32) (lawful : Lawful w'.trace)
    : w'.Inv where
  roles := by
    intro other place about
    rw [roles] at about ⊢
    rw [phases]
    by_cases self : other = t
    · subst other
      rw [Function.update_self] at about ⊢
      have same : place = idx := by
        rcases new with none | some
        · rw [none] at about
          cases about
        · exact Option.some.inj (about.symm.trans some)
      subst place
      rw [Function.update_self]
      exact fits about
    · rw [Function.update_of_ne self] at about ⊢
      by_cases same : place = idx
      · subst place
        rw [Function.update_self]
        exact others other self about
      · rw [Function.update_of_ne same]
        exact inv.roles other place about
  holders := by
    intro other place named
    rw [phases] at named
    rw [roles]
    by_cases same : place = idx
    · subst place
      rw [Function.update_self] at named
      rcases holder other named with ⟨self, holds⟩ | ⟨self, named⟩
      · subst other
        rwa [Function.update_self]
      · rw [Function.update_of_ne self]
        exact inv.holders other idx named
    · rw [Function.update_of_ne same] at named
      have holds := inv.holders other place named
      have self : other ≠ t := by
        intro self
        subst other
        have about := Role.slot_of_holds holds
        rcases old with none | some
        · rw [none] at about
          cases about
        · exact same (Option.some.inj (about.symm.trans some))
      rwa [Function.update_of_ne self]
  guards := by
    intro guard member
    rw [phases]
    rcases guards guard member with ⟨apart, earlier⟩ | ⟨here, fits⟩
    · rw [Function.update_of_ne apart]
      exact inv.guards guard earlier
    · rw [here, Function.update_self]
      exact fits
  free := by
    intro other
    rw [free other, phases]
    by_cases same : other = idx
    · subst other
      simp
    · simp only [same, ↓reduceIte, ne_eq, not_false_eq_true, Function.update_of_ne]
      exact inv.free other
  nodup := nodup
  born := by
    intro other
    rw [born other, phases]
    by_cases same : other = idx
    · subst other
      simp
    · simp only [same, ↓reduceIte, ne_eq, not_false_eq_true, Function.update_of_ne]
      exact inv.born other
  slots := by
    intro other
    rw [slots, phases]
    by_cases same : other = idx
    · subst other
      simpa only [Function.update_self] using slotFits
    · rw [Function.update_of_ne same, Function.update_of_ne same]
      have before : (w.role t).refs other = 0 := Role.refs_eq_zero (by
        rcases old with none | some
        · simp [none]
        · simp [some, Ne.symm same])
      have after : role.refs other = 0 := Role.refs_eq_zero (by
        rcases new with none | some
        · simp [none]
        · simp [some, Ne.symm same])
      have total := refs_update roles other
      have kept : w'.refs other = w.refs other := by
        have := counted other same
        omega
      rw [kept]
      exact inv.slots other
  counts := by
    intro other
    rw [slots]
    by_cases same : other = idx
    · subst other
      simpa only [Function.update_self] using count
    · simpa only [Function.update_of_ne same] using inv.counts other
  bound := bound
  lawful := lawful

end Ownership

end AtomicSlotMap
