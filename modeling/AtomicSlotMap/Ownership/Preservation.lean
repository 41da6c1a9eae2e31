import AtomicSlotMap.Ownership.Invariant

/-! Every step of the ownership protocol keeps its invariant. -/

namespace AtomicSlotMap

variable {T K V E : Type} [Key K]

/-- A phase names the activity that is answerable for its slot, by cases on the role. -/
theorem Role.Fits.holder_of_holds {role : Role K V} {t : T} {phase : Phase T K V} {idx : Nat}
    (fits : role.Fits t phase) (holds : role.holds = some idx)
    : phase.holder = some t := by
  cases role with
  | reserved _ => exact congrArg Phase.holder (show phase = .held t from fits)
  | filled _ stored => exact congrArg Phase.holder (show phase = .filled t stored from fits)
  | armed _ stored => exact congrArg Phase.holder (show phase = .armed t stored from fits)
  | retiring _ =>
      obtain ⟨key, stored, rfl⟩ := fits
      rfl
  | dropping _ =>
      obtain ⟨key, stored, rfl⟩ := fits
      rfl
  | emptied _ => exact congrArg Phase.holder (show phase = .emptied t from fits)
  | _ => cases holds

/-- A slot held by anyone but a remover is not occupied, by cases on the role. -/
theorem Role.Fits.unoccupied {role : Role K V} {t : T} {phase : Phase T K V} {idx : Nat}
    (fits : role.Fits t phase) (holds : role.holds = some idx)
    (staying : ∀ key, role ≠ .retiring key)
    : phase.occupant = Option.none := by
  cases role with
  | reserved _ => exact congrArg Phase.occupant (show phase = .held t from fits)
  | filled _ stored => exact congrArg Phase.occupant (show phase = .filled t stored from fits)
  | armed _ stored => exact congrArg Phase.occupant (show phase = .armed t stored from fits)
  | retiring key => exact absurd rfl (staying key)
  | dropping _ =>
      obtain ⟨key, stored, rfl⟩ := fits
      rfl
  | emptied _ => exact congrArg Phase.occupant (show phase = .emptied t from fits)
  | _ => cases holds

/-- A guard fits shared phases only. -/
theorem Guard.Fits.shared {guard : Guard K V} {phase : Phase T K V} (fits : guard.Fits phase)
    : phase.shared := by
  obtain ⟨key, stored, occupied, _⟩ := fits
  cases phase <;> simp [Phase.occupant, Phase.shared] at occupied ⊢

/-- A phase that is not shared only fits the role of the activity it names. -/
theorem Role.Fits.holder_of_not_shared {role : Role K V} {t : T} {phase : Phase T K V}
    {idx : Nat} (fits : role.Fits t phase) (about : role.slot = some idx)
    (alone : ¬ phase.shared)
    : phase.holder = some t := by
  cases role with
  | none => cases about
  | temp _ => exact absurd fits alone
  | unguarding guard => exact absurd (Guard.Fits.shared fits) alone
  | _ => exact fits.holder_of_holds about

/-- A slot that is not in a shared phase has no references. -/
theorem Slot.Fits.refs_eq_zero {slot : Slot V} {idx refs : Nat} {phase : Phase T K V}
    (fits : slot.Fits idx refs phase) (alone : ¬ phase.shared)
    : refs = 0 := by
  cases phase <;> simp_all [Slot.Fits, Phase.shared]

/-- A reference to a slot puts it in a shared phase. -/
theorem Slot.Fits.shared_of_pos {slot : Slot V} {idx refs : Nat} {phase : Phase T K V}
    (fits : slot.Fits idx refs phase) (positive : 0 < slot.refCount)
    : phase.shared := by
  cases phase <;> simp_all [Slot.Fits, Phase.shared]

/-- One more reference and one more in the count keep a shared slot in order. -/
theorem Slot.Fits.raise {slot : Slot V} {idx refs : Nat} {phase : Phase T K V}
    (fits : slot.Fits idx refs phase) (shared : phase.shared)
    : Slot.Fits { slot with refCount := slot.refCount + 1 } idx (refs + 1) phase := by
  cases phase <;> simp_all [Slot.Fits, Phase.shared] <;> omega

/-- One reference less and one less in the count keep a slot in order, unless it was the
last one.
-/
theorem Slot.Fits.lower {slot : Slot V} {idx refs : Nat} {phase : Phase T K V}
    (fits : slot.Fits idx (refs + 1) phase) (more : slot.refCount ≠ 1)
    : Slot.Fits { slot with refCount := slot.refCount - 1 } idx refs phase := by
  cases phase <;> simp_all [Slot.Fits] <;> omega

namespace Ownership

variable [DecidableEq T] [Fintype T] {w w' : Ownership T K V}

/-- A slot with a history is within the vector. -/
theorem Inv.lt_len (inv : w.Inv) {idx : Nat} (begun : w.phase idx ≠ .unborn) : idx < w.len :=
  Nat.lt_of_not_le fun beyond => begun ((inv.born idx).mpr beyond)

/-- The slot an activity is answerable for is within the vector. -/
theorem Inv.holds_lt_len (inv : w.Inv) {t : T} {idx : Nat}
    (holds : (w.role t).holds = some idx)
    : idx < w.len := by
  refine inv.lt_len fun unborn => ?_
  have named := (inv.roles t idx (Role.slot_of_holds holds)).holder_of_holds holds
  rw [unborn] at named
  cases named

/-- Two activities are not answerable for one slot. -/
theorem Inv.holder_unique (inv : w.Inv) {t other : T} {idx : Nat}
    (holds : (w.role t).holds = some idx) (holds' : (w.role other).holds = some idx)
    : other = t := by
  have named (x : T) (holds : (w.role x).holds = some idx) :
      (w.phase idx).holder = some x :=
    (inv.roles x idx (Role.slot_of_holds holds)).holder_of_holds holds
  exact Option.some.inj ((named other holds').symm.trans (named t holds))

/-- No guard refers to a slot in a phase that is not shared. -/
theorem Inv.guard_apart (inv : w.Inv) {guard : Guard K V} {idx : Nat}
    (member : guard ∈ w.guards) (alone : ¬ (w.phase idx).shared)
    : KeyData.idx guard.key ≠ idx := by
  intro here
  have fits := inv.guards guard member
  rw [here] at fits
  exact alone fits.shared

/-- A step on a slot that nobody else has to do with. -/
theorem Inv.alone_transition (inv : w.Inv) (t : T) (idx : Nat) (role : Role K V)
    (phase : Phase T K V) (slot : Slot V)
    (roles : w'.role = Function.update w.role t role)
    (slots : w'.slots = Function.update w.slots idx slot)
    (phases : w'.phase = Function.update w.phase idx phase)
    (guards : w'.guards = w.guards)
    (alone : ¬ (w.phase idx).shared)
    (mine : ∀ other, (w.phase idx).holder = some other → other = t)
    (old : (w.role t).slot = none ∨ (w.role t).slot = some idx)
    (new : role.slot = none ∨ role.slot = some idx)
    (uncounted : role.refs idx = 0)
    (fits : role.slot = some idx → role.Fits t phase)
    (holder : ∀ other, phase.holder = some other → other = t ∧ role.holds = some idx)
    (free : ∀ other, other ∈ w'.free ↔ if other = idx then phase = .free else other ∈ w.free)
    (nodup : w'.free.Nodup)
    (born : ∀ other, w'.len ≤ other ↔ if other = idx then phase = .unborn else w.len ≤ other)
    (slotFits : slot.Fits idx 0 phase)
    (count : slot.refCount < 2 ^ 32) (bound : w'.len < 2 ^ 32) (lawful : Lawful w'.trace)
    : w'.Inv := by
  have unreferenced : w'.refs idx = 0 := by
    have before := (inv.slots idx).refs_eq_zero alone
    have total := refs_update roles idx
    rw [guards] at total
    omega
  refine inv.transition t idx role phase slot roles slots phases old new fits ?_ ?_ ?_ ?_
    free nodup born (unreferenced ▸ slotFits) count bound lawful
  · intro other self about
    exact absurd (mine other ((inv.roles other idx about).holder_of_not_shared about alone))
      self
  · intro other named
    exact Or.inl (holder other named)
  · intro guard member
    rw [guards] at member
    exact Or.inl ⟨inv.guard_apart member alone, member⟩
  · intro other _
    rw [guards]

theorem Inv.phase_reserved (inv : w.Inv) {t : T} {idx : Nat}
    (holds : w.role t = .reserved idx)
    : w.phase idx = .held t := by
  simpa only [holds, Role.Fits] using inv.roles t idx (by simp [holds, Role.slot])

theorem Inv.phase_filled (inv : w.Inv) {t : T} {idx : Nat} {stored : Stored V}
    (holds : w.role t = .filled idx stored)
    : w.phase idx = .filled t stored := by
  simpa only [holds, Role.Fits] using inv.roles t idx (by simp [holds, Role.slot])

theorem Inv.phase_armed (inv : w.Inv) {t : T} {idx : Nat} {stored : Stored V}
    (holds : w.role t = .armed idx stored)
    : w.phase idx = .armed t stored := by
  simpa only [holds, Role.Fits] using inv.roles t idx (by simp [holds, Role.slot])

theorem Inv.phase_dropping (inv : w.Inv) {t : T} {idx : Nat}
    (holds : w.role t = .dropping idx)
    : ∃ key stored, w.phase idx = .dropping t key stored := by
  simpa only [holds, Role.Fits] using inv.roles t idx (by simp [holds, Role.slot])

/-- A slot that is and stays off the free list does not disturb it. -/
theorem Inv.kept_free (inv : w.Inv) {idx : Nat} {phase : Phase T K V}
    (same : w'.free = w.free) (before : w.phase idx ≠ .free) (after : phase ≠ .free)
    (other : Nat)
    : other ∈ w'.free ↔ if other = idx then phase = .free else other ∈ w.free := by
  by_cases here : other = idx
  · subst other
    simp [same, inv.free, before, after]
  · simp [same, here]

/-- A slot that is and stays within the vector does not change its length. -/
theorem Inv.kept_born (inv : w.Inv) {idx : Nat} {phase : Phase T K V}
    (same : w'.len = w.len) (before : w.phase idx ≠ .unborn) (after : phase ≠ .unborn)
    (other : Nat)
    : w'.len ≤ other ↔ if other = idx then phase = .unborn else w.len ≤ other := by
  by_cases here : other = idx
  · subst other
    simp [same, ← inv.born, before, after]
  · simp [same, here]

omit [Fintype T] in
theorem phase_act {t : T} {role : Role K V} {idx : Nat} {slot : Slot V}
    {event : Event T K V} (about : event.slot = some idx)
    : (w.act t role idx slot event).phase
      = Function.update w.phase idx ((w.phase idx).advance event) :=
  phaseOf_cons about

theorem Inv.phase_vacant (inv : w.Inv) {t : T} {idx : Nat} (holds : (w.role t).vacant idx)
    : w.phase idx = .held t ∨ w.phase idx = .emptied t := by
  have fits := inv.roles t idx (Role.slot_of_holds (Role.holds_of_vacant holds))
  cases role : w.role t <;> simp_all [Role.vacant, Role.Fits]

/-- The words of a slot that is held without a value. -/
theorem Inv.slot_vacant (inv : w.Inv) {t : T} {idx : Nat} (holds : (w.role t).vacant idx)
    : (w.slots idx).version % 2 = 0 ∧ (w.slots idx).refCount = 0
      ∧ (w.slots idx).data = none ∧ w.refs idx = 0 := by
  have fits := inv.slots idx
  rcases inv.phase_vacant holds with phase | phase <;>
    · rw [phase] at fits
      exact fits

/-- A step of an activity on the slot it holds without a value: it lets go of the slot or
changes its words.
-/
theorem Inv.vacant_transition (inv : w.Inv) {t : T} {idx : Nat}
    (holds : (w.role t).vacant idx) (role : Role K V) (phase : Phase T K V) (slot : Slot V)
    (roles : w'.role = Function.update w.role t role)
    (slots : w'.slots = Function.update w.slots idx slot)
    (phases : w'.phase = Function.update w.phase idx phase)
    (guards : w'.guards = w.guards) (len : w'.len = w.len)
    (new : role.slot = none ∨ role.slot = some idx)
    (uncounted : role.refs idx = 0)
    (fits : role.slot = some idx → role.Fits t phase)
    (holder : ∀ other, phase.holder = some other → other = t ∧ role.holds = some idx)
    (begun : phase ≠ .unborn)
    (free : ∀ other, other ∈ w'.free ↔ if other = idx then phase = .free else other ∈ w.free)
    (nodup : w'.free.Nodup) (slotFits : slot.Fits idx 0 phase)
    (count : slot.refCount < 2 ^ 32) (lawful : Lawful w'.trace)
    : w'.Inv := by
  have before := inv.phase_vacant holds
  have about := Role.slot_of_holds (Role.holds_of_vacant holds)
  refine inv.alone_transition t idx role phase slot roles slots phases guards ?_ ?_
    (Or.inr about) new uncounted fits holder free nodup ?_ slotFits count (len ▸ inv.bound)
    lawful
  · rcases before with held | held <;> simp [held, Phase.shared]
  · rcases before with held | held <;> simp [held, Phase.holder]
  · refine inv.kept_born len ?_ begun
    rcases before with held | held <;> simp [held]

/-- A slot that is held without a value is not on the free list. -/
theorem Inv.vacant_not_free (inv : w.Inv) {t : T} {idx : Nat}
    (holds : (w.role t).vacant idx)
    : w.phase idx ≠ .free := by
  rcases inv.phase_vacant holds with held | held <;> simp [held]

theorem Inv.pop (inv : w.Inv) {t : T} {idx : Nat} {rest : List Nat}
    (idle : w.role t = .none) (top : w.free = idx :: rest)
    : Inv
        {
          w with
          free := rest
          role := Function.update w.role t (.reserved idx)
          trace := .popped t idx :: w.trace
        } := by
  have phase : w.phase idx = .free := (inv.free idx).mp (by simp [top])
  have nodup := inv.nodup
  rw [top, List.nodup_cons] at nodup
  refine inv.alone_transition t idx (.reserved idx) (.held t) (w.slots idx) rfl
    (Function.update_eq_self idx w.slots).symm (phaseOf_cons rfl) rfl
    (by simp [phase, Phase.shared]) (by simp [phase, Phase.holder]) (by simp [idle, Role.slot])
    (by simp [Role.slot]) rfl (fun _ => rfl)
    (by intro other named; exact ⟨(Option.some.inj named).symm, rfl⟩) ?_ nodup.2 ?_ ?_
    (inv.counts idx) inv.bound ⟨?_, inv.lawful⟩
  · intro other
    by_cases same : other = idx
    · subst other
      simp [nodup.1]
    · simp [top, same]
  · exact inv.kept_born rfl (by simp [phase]) (by simp)
  · have fits := inv.slots idx
    simp only [phase, Slot.Fits] at fits
    exact ⟨fits.1, fits.2.1, fits.2.2.1, rfl⟩
  · intro place about
    obtain rfl := Option.some.inj about
    exact phase

theorem Inv.push (inv : w.Inv) {t : T} (idle : w.role t = .none) (room : w.len + 1 < 2 ^ 32)
    : Inv
        {
          w with
          len := w.len + 1
          role := Function.update w.role t (.reserved w.len)
          trace := .pushed t w.len :: w.trace
        } := by
  have phase : w.phase w.len = .unborn := (inv.born w.len).mpr (Nat.le_refl _)
  refine inv.alone_transition t w.len (.reserved w.len) (.held t) (w.slots w.len) rfl
    (Function.update_eq_self w.len w.slots).symm (phaseOf_cons rfl) rfl
    (by simp [phase, Phase.shared]) (by simp [phase, Phase.holder]) (by simp [idle, Role.slot])
    (by simp [Role.slot]) rfl (fun _ => rfl)
    (by intro other named; exact ⟨(Option.some.inj named).symm, rfl⟩) ?_ inv.nodup ?_ ?_
    (inv.counts w.len) room ⟨?_, inv.lawful⟩
  · exact inv.kept_free rfl (by simp [phase]) (by simp)
  · intro other
    by_cases same : other = w.len
    · simp [same]
    · simp only [same, ↓reduceIte]
      omega
  · have fits := inv.slots w.len
    simp only [phase, Slot.Fits] at fits
    exact ⟨by omega, fits.2.1, fits.2.2.1, rfl⟩
  · intro place about
    obtain rfl := Option.some.inj about
    exact phase

theorem Inv.recycle (inv : w.Inv) {t : T} {idx : Nat} (holds : (w.role t).vacant idx)
    : Inv
        {
          w with
          free := idx :: w.free
          role := Function.update w.role t .none
          trace := .recycled t idx :: w.trace
        } := by
  have absent : idx ∉ w.free := fun member =>
    inv.vacant_not_free holds ((inv.free idx).mp member)
  obtain ⟨even, zero, empty, _⟩ := inv.slot_vacant holds
  refine inv.vacant_transition holds .none .free (w.slots idx) rfl
    (Function.update_eq_self idx w.slots).symm (phaseOf_cons rfl) rfl rfl (by simp [Role.slot])
    rfl (fun _ => trivial) (by simp [Phase.holder]) (by simp) ?_
    (List.nodup_cons.mpr ⟨absent, inv.nodup⟩) ⟨even, zero, empty, rfl⟩ (inv.counts idx)
    ⟨?_, inv.lawful⟩
  · intro other
    by_cases same : other = idx <;> simp [same]
  · intro place about
    obtain rfl := Option.some.inj about
    exact inv.phase_vacant holds

theorem Inv.leak (inv : w.Inv) {t : T} {idx : Nat} (holds : (w.role t).vacant idx)
    : Inv
        {
          w with
          role := Function.update w.role t .none
          trace := .leaked t idx :: w.trace
        } := by
  obtain ⟨even, zero, empty, _⟩ := inv.slot_vacant holds
  refine inv.vacant_transition holds .none .lost (w.slots idx) rfl
    (Function.update_eq_self idx w.slots).symm (phaseOf_cons rfl) rfl rfl (by simp [Role.slot])
    rfl (fun _ => trivial) (by simp [Phase.holder]) (by simp)
    (inv.kept_free rfl (inv.vacant_not_free holds) (by simp)) inv.nodup
    ⟨even, zero, empty, rfl⟩ (inv.counts idx) ⟨?_, inv.lawful⟩
  intro place about
  obtain rfl := Option.some.inj about
  exact inv.phase_vacant holds

theorem Inv.write (inv : w.Inv) {t : T} {idx : Nat} {stored : Stored V}
    (holds : w.role t = .reserved idx) (fresh : stored.serial = w.trace.length)
    : (w.act t (.filled idx stored) idx { w.slots idx with data := some stored }
        (.wrote t idx stored)).Inv := by
  have phase := inv.phase_reserved holds
  refine inv.alone_transition t idx (.filled idx stored) (.filled t stored) _ rfl rfl
    (phaseOf_cons rfl) rfl
    (by simp [phase, Phase.shared]) (by simp [phase, Phase.holder]) (by simp [holds, Role.slot])
    (by simp [Role.slot]) rfl (fun _ => rfl)
    (by intro other named; exact ⟨(Option.some.inj named).symm, rfl⟩) ?_ inv.nodup ?_ ?_
    (inv.counts idx) inv.bound ⟨?_, inv.lawful⟩
  · exact inv.kept_free rfl (by simp [phase]) (by simp)
  · exact inv.kept_born rfl (by simp [phase]) (by simp)
  · have fits := inv.slots idx
    simp only [phase, Slot.Fits] at fits
    exact ⟨fits.1, fits.2.1, rfl, rfl⟩
  · intro place about
    obtain rfl := Option.some.inj about
    exact ⟨phase, fresh⟩

theorem Inv.arm (inv : w.Inv) {t : T} {idx : Nat} {stored : Stored V}
    (holds : w.role t = .filled idx stored)
    : (w.act t (.armed idx stored) idx { w.slots idx with refCount := 1 }
        (.armed t idx)).Inv := by
  have phase := inv.phase_filled holds
  refine inv.alone_transition t idx (.armed idx stored) (.armed t stored) _ rfl rfl
    (by rw [phase_act rfl, phase]; rfl)
    rfl (by simp [phase, Phase.shared]) (by simp [phase, Phase.holder])
    (by simp [holds, Role.slot]) (by simp [Role.slot]) rfl (fun _ => rfl)
    (by intro other named; exact ⟨(Option.some.inj named).symm, rfl⟩) ?_ inv.nodup ?_ ?_
    (by simp) inv.bound ⟨?_, inv.lawful⟩
  · exact inv.kept_free rfl (by simp [phase]) (by simp)
  · exact inv.kept_born rfl (by simp [phase]) (by simp)
  · have fits := inv.slots idx
    simp only [phase, Slot.Fits] at fits
    exact ⟨fits.1, rfl, fits.2.2.1⟩
  · intro place about
    obtain rfl := Option.some.inj about
    exact ⟨stored, phase⟩

theorem Inv.drop (inv : w.Inv) {t : T} {idx : Nat} (holds : w.role t = .dropping idx)
    : (w.act t (.emptied idx) idx { w.slots idx with data := none }
        (.dropped t idx (w.slots idx).data)).Inv := by
  obtain ⟨key, stored, phase⟩ := inv.phase_dropping holds
  have fits := inv.slots idx
  simp only [phase, Slot.Fits] at fits
  refine inv.alone_transition t idx (.emptied idx) (.emptied t) _ rfl rfl (phaseOf_cons rfl) rfl
    (by simp [phase, Phase.shared]) (by simp [phase, Phase.holder]) (by simp [holds, Role.slot])
    (by simp [Role.slot]) rfl (fun _ => rfl)
    (by intro other named; exact ⟨(Option.some.inj named).symm, rfl⟩) ?_ inv.nodup ?_
    ⟨fits.1, fits.2.2.1, rfl, rfl⟩ (inv.counts idx) inv.bound ⟨?_, inv.lawful⟩
  · exact inv.kept_free rfl (by simp [phase]) (by simp)
  · exact inv.kept_born rfl (by simp [phase]) (by simp)
  · intro place about
    obtain rfl := Option.some.inj about
    exact ⟨key, stored, phase, fits.2.2.2.2⟩

/-- An odd version is the version of a live slot. -/
theorem Inv.live_of_version (inv : w.Inv) (idx : Nat) {version : Nat}
    (current : (w.slots idx).version = version) (odd : version % 2 = 1)
    : ∃ key stored, w.phase idx = .live key stored := by
  have fits := inv.slots idx
  cases phase : w.phase idx with
  | live key stored => exact ⟨key, stored, rfl⟩
  | _ =>
      simp only [phase, Slot.Fits] at fits
      omega

/-- An activity that references a slot counts among its references, unless it is a remover
with the map's reference.
-/
theorem refs_of_references {role : Role K V} {idx : Nat} (holds : role.references idx)
    : role.slot = some idx
      ∧ (role.refs idx = 1 ∨ ∃ key, role = .retiring key ∧ role.refs idx = 0) := by
  cases role <;> simp_all [Role.references, Role.slot, Role.refs]

omit [DecidableEq T] in
theorem refs_pos_of_role {t : T} {idx : Nat} (counted : (w.role t).refs idx = 1)
    : 0 < w.refs idx := by
  have contribution : (w.role t).refs idx ≤ ∑ u, (w.role u).refs idx :=
    Finset.single_le_sum (fun u _ => Nat.zero_le ((w.role u).refs idx)) (Finset.mem_univ t)
  simp only [refs]
  omega

omit [DecidableEq T] in
theorem refs_pos_of_guard {guard : Guard K V} (member : guard ∈ w.guards)
    : 0 < w.refs (KeyData.idx guard.key) := by
  have counted : 0 < w.guards.countP
      (fun other => KeyData.idx other.key = KeyData.idx guard.key) :=
    Multiset.countP_pos.mpr ⟨guard, member, rfl⟩
  simp only [refs]
  omega

/-- The references after a change of one role and of the guards, given how they balance. -/
theorem refs_eq {t : T} {role : Role K V} {idx count : Nat}
    (roles : w'.role = Function.update w.role t role)
    (balance
      : w.refs idx + role.refs idx
          + w'.guards.countP (fun guard => KeyData.idx guard.key = idx)
        = count + (w.role t).refs idx
          + w.guards.countP (fun guard => KeyData.idx guard.key = idx))
    : w'.refs idx = count := by
  have total := refs_update roles idx
  omega

theorem refs_act (t : T) (role : Role K V) (idx : Nat) (slot : Slot V) (event : Event T K V)
    : (w.act t role idx slot event).refs idx + (w.role t).refs idx
      = w.refs idx + role.refs idx := by
  have roles : (w.act t role idx slot event).role = Function.update w.role t role := rfl
  have total := refs_update roles idx
  simp only [act] at total ⊢
  omega

/-- A change between roles that count the same leaves the references alone. -/
theorem refs_act_same {t : T} {role : Role K V} {idx : Nat} {slot : Slot V}
    {event : Event T K V} (same : role.refs idx = (w.role t).refs idx)
    : (w.act t role idx slot event).refs idx = w.refs idx := by
  have total := refs_act (w := w) t role idx slot event
  omega

theorem Inv.publish (inv : w.Inv) {t : T} {key : K} {stored : Stored V}
    (holds : w.role t = .armed (KeyData.idx key) stored)
    : (w.act t .none (KeyData.idx key)
        { w.slots (KeyData.idx key) with version := KeyData.version key }
        (.published t key stored)).Inv := by
  have phase := inv.phase_armed holds
  have fits := inv.slots (KeyData.idx key)
  simp only [phase, Slot.Fits] at fits
  refine inv.transition t (KeyData.idx key) .none (.live key stored) _ rfl rfl
    (phaseOf_cons rfl) (by simp [holds, Role.slot]) (by simp [Role.slot])
    (fun _ => trivial) ?_ (by simp [Phase.holder]) ?_ (fun _ _ => rfl)
    (inv.kept_free rfl (by simp [phase]) (by simp)) inv.nodup
    (inv.kept_born rfl (by simp [phase]) (by simp)) ?_ (inv.counts _) inv.bound
    ⟨?_, inv.lawful⟩
  · -- only temporary references meet the slot between the two stores
    intro other self about
    have otherFits := inv.roles other _ about
    cases role : w.role other <;>
      simp_all [Role.Fits, Guard.Fits, Phase.occupant, Phase.shared]
  · intro guard member
    refine Or.inl ⟨?_, member⟩
    intro here
    obtain ⟨_, _, occupied, _⟩ := inv.guards guard member
    simp [here, phase, Phase.occupant] at occupied
  · rw [refs_act_same (by simp [holds, Role.refs])]
    exact ⟨rfl, rfl, fits.2⟩
  · intro place about
    obtain rfl := Option.some.inj about
    exact phase

theorem Inv.retire (inv : w.Inv) {t : T} {key : K} (idle : w.role t = .none)
    (current : (w.slots (KeyData.idx key)).version = KeyData.version key)
    : (w.act t (.retiring key) (KeyData.idx key)
        { w.slots (KeyData.idx key) with version := wrappingAdd (KeyData.version key) 1 }
        (.retired t key)).Inv := by
  obtain ⟨found, stored, phase⟩ := inv.live_of_version _ current (KeyData.version_odd key)
  have fits := inv.slots (KeyData.idx key)
  simp only [phase, Slot.Fits] at fits
  refine inv.transition t (KeyData.idx key) (.retiring key)
    (.retired found stored (some t)) _ rfl rfl (by rw [phase_act rfl, phase]; rfl)
    (by simp [idle, Role.slot]) (by simp [Role.slot]) (fun _ => ⟨found, stored, rfl⟩) ?_
    (by intro other named; exact Or.inl ⟨(Option.some.inj named).symm, rfl⟩) ?_
    (fun _ _ => rfl) (inv.kept_free rfl (by simp [phase]) (by simp)) inv.nodup
    (inv.kept_born rfl (by simp [phase]) (by simp)) ?_ (inv.counts _) inv.bound
    ⟨?_, inv.lawful⟩
  · intro other self about
    have otherFits := inv.roles other _ about
    cases role : w.role other <;>
      simp_all [Role.Fits, Guard.Fits, Phase.occupant, Phase.shared]
  · intro guard member
    by_cases here : KeyData.idx guard.key = KeyData.idx key
    · have guardFits := inv.guards guard member
      rw [here, phase] at guardFits
      exact Or.inr ⟨here, guardFits⟩
    · exact Or.inl ⟨here, member⟩
  · rw [refs_act_same (by simp [idle, Role.refs])]
    have odd := KeyData.version_odd key
    refine ⟨?_, fits.2.1, ?_, ?_, fits.2.2.2⟩
    · simp only [wrappingAdd]
      omega
    · simp only [Option.isSome_some, ↓reduceIte]
      omega
    · simp only
      omega
  · intro place about
    obtain rfl := Option.some.inj about
    exact ⟨found, stored, phase, fits.2.1, by omega⟩

theorem Inv.link (inv : w.Inv) {t : T} {idx next : Nat} (holds : (w.role t).vacant idx)
    : Inv
        {
          w with
          slots := Function.update w.slots idx { w.slots idx with nextFree := next }
        } := by
  obtain ⟨even, zero, empty, _⟩ := inv.slot_vacant holds
  have about := Role.slot_of_holds (Role.holds_of_vacant holds)
  have notFree := inv.vacant_not_free holds
  refine inv.vacant_transition holds (w.role t) (w.phase idx) _
    (Function.update_eq_self t w.role).symm rfl (Function.update_eq_self idx w.phase).symm rfl
    rfl (Or.inr about) ?_ (fun about => inv.roles t idx about) ?_ ?_
    (inv.kept_free rfl notFree notFree) inv.nodup ?_ (inv.counts idx) inv.lawful
  · cases role : w.role t <;> simp_all [Role.vacant, Role.refs]
  · intro other named
    refine ⟨?_, Role.holds_of_vacant holds⟩
    rcases inv.phase_vacant holds with held | held <;>
      · rw [held] at named
        exact (Option.some.inj named).symm
  · rcases inv.phase_vacant holds with held | held <;> simp [held]
  · rcases inv.phase_vacant holds with held | held <;>
      · rw [held]
        exact ⟨even, zero, empty, rfl⟩

theorem Inv.note (inv : w.Inv) {event : Event T K V} (apart : event.slot = none)
    : Inv { w with trace := event :: w.trace } := by
  have phases : Ownership.phase { w with trace := event :: w.trace } = w.phase :=
    phaseOf_cons_apart apart
  exact {
    roles := by rw [phases]; exact inv.roles
    holders := by rw [phases]; exact inv.holders
    guards := by rw [phases]; exact inv.guards
    free := by rw [phases]; exact inv.free
    nodup := inv.nodup
    born := by rw [phases]; exact inv.born
    slots := by rw [phases]; exact inv.slots
    counts := inv.counts
    bound := inv.bound
    lawful := ⟨by simp [apart], inv.lawful⟩
  }

/-- A step on a slot in a shared phase that changes neither the phase nor the trace: one
activity changes its role or the guards change, and the reference count follows.
-/
theorem Inv.shared_transition (inv : w.Inv) (t : T) (idx : Nat) (role : Role K V) (slot : Slot V)
    (roles : w'.role = Function.update w.role t role)
    (slots : w'.slots = Function.update w.slots idx slot)
    (len : w'.len = w.len) (free : w'.free = w.free) (trace : w'.trace = w.trace)
    (shared : (w.phase idx).shared)
    (old : (w.role t).slot = none ∨ (w.role t).slot = some idx)
    (new : role.slot = none ∨ role.slot = some idx)
    (fits : role.slot = some idx → role.Fits t (w.phase idx))
    (unnamed : (w.phase idx).holder = some t → role.holds = some idx)
    (guards
      : ∀ guard ∈ w'.guards,
          guard ∈ w.guards ∨ (KeyData.idx guard.key = idx ∧ guard.Fits (w.phase idx)))
    (counted
      : ∀ other ≠ idx,
          w'.guards.countP (fun guard => KeyData.idx guard.key = other)
          = w.guards.countP (fun guard => KeyData.idx guard.key = other))
    (refs : Nat) (balance : w'.refs idx = refs) (slotFits : slot.Fits idx refs (w.phase idx))
    (count : slot.refCount < 2 ^ 32)
    : w'.Inv := by
  have phases : w'.phase = Function.update w.phase idx (w.phase idx) := by
    rw [Function.update_eq_self, Ownership.phase, trace]
    rfl
  have notFree : w.phase idx ≠ .free := by
    intro free
    simp [free, Phase.shared] at shared
  have notUnborn : w.phase idx ≠ .unborn := by
    intro unborn
    simp [unborn, Phase.shared] at shared
  refine inv.transition t idx role (w.phase idx) slot roles slots phases old new fits
    (fun other _ about => inv.roles other idx about) ?_ ?_ counted
    (inv.kept_free free notFree notFree) (free ▸ inv.nodup)
    (inv.kept_born len notUnborn notUnborn) (balance ▸ slotFits) count (len ▸ inv.bound)
    (trace ▸ inv.lawful)
  · intro other named
    by_cases self : other = t
    · subst other
      exact Or.inl ⟨rfl, unnamed named⟩
    · exact Or.inr ⟨self, named⟩
  · intro guard member
    rcases guards guard member with earlier | here
    · by_cases same : KeyData.idx guard.key = idx
      · exact Or.inr ⟨same, same ▸ inv.guards guard earlier⟩
      · exact Or.inl ⟨same, earlier⟩
    · exact Or.inr here

/-- An activity without a role is not named by any phase. -/
theorem Inv.unnamed (inv : w.Inv) {t : T} (apart : (w.role t).holds = none) (idx : Nat)
    : (w.phase idx).holder ≠ some t := by
  intro named
  have holds := inv.holders t idx named
  rw [apart] at holds
  cases holds

theorem Inv.acquire (inv : w.Inv) {t : T} {idx : Nat} (idle : w.role t = .none)
    (positive : 0 < (w.slots idx).refCount) (room : (w.slots idx).refCount + 1 < 2 ^ 32)
    : Inv
        {
          w with
          slots := Function.update w.slots idx
            { w.slots idx with refCount := (w.slots idx).refCount + 1 }
          role := Function.update w.role t (.temp idx)
        } := by
  have shared := (inv.slots idx).shared_of_pos positive
  refine inv.shared_transition t idx (.temp idx) _ rfl rfl rfl rfl rfl shared
    (by simp [idle, Role.slot]) (by simp [Role.slot]) (fun _ => shared)
    (fun named => absurd named (inv.unnamed (by simp [idle, Role.holds]) idx))
    (fun guard member => Or.inl member) (fun _ _ => rfl) (w.refs idx + 1)
    (refs_eq rfl ?_) ((inv.slots idx).raise shared) room
  simp [idle, Role.refs]

theorem Inv.guard (inv : w.Inv) {t : T} {guard : Guard K V}
    (holds : w.role t = .temp (KeyData.idx guard.key))
    (current : (w.slots (KeyData.idx guard.key)).version = KeyData.version guard.key)
    (pointee : guard.pointee = (w.slots (KeyData.idx guard.key)).data)
    : Inv
        {
          w with
          role := Function.update w.role t .none
          guards := guard ::ₘ w.guards
        } := by
  obtain ⟨key, stored, phase⟩ := inv.live_of_version _ current (KeyData.version_odd guard.key)
  have fits := inv.slots (KeyData.idx guard.key)
  have words := fits
  simp only [phase, Slot.Fits] at words
  refine inv.shared_transition t (KeyData.idx guard.key) .none _ rfl
    (Function.update_eq_self _ w.slots).symm rfl rfl rfl (by simp [phase, Phase.shared])
    (by simp [holds, Role.slot]) (by simp [Role.slot]) (fun _ => trivial)
    (fun named => absurd named (inv.unnamed (by simp [holds, Role.holds]) _)) ?_ ?_
    (w.refs (KeyData.idx guard.key)) (refs_eq rfl ?_) fits (inv.counts _)
  · intro other member
    rcases Multiset.mem_cons.mp member with same | earlier
    · subst other
      refine Or.inr ⟨rfl, key, stored, by simp [phase, Phase.occupant], ?_, ?_⟩
      · exact words.1.symm.trans current
      · exact pointee.trans words.2.2.2
    · exact Or.inl earlier
  · intro other apart
    simp [Ne.symm apart]
  · simp [holds, Role.refs]
    omega

theorem Inv.unguard (inv : w.Inv) {t : T} {guard : Guard K V} {others : Multiset (Guard K V)}
    (idle : w.role t = .none) (member : w.guards = guard ::ₘ others)
    : Inv
        {
          w with
          role := Function.update w.role t (.unguarding guard)
          guards := others
        } := by
  have guardFits := inv.guards guard (by simp [member])
  refine inv.shared_transition t (KeyData.idx guard.key) (.unguarding guard) _ rfl
    (Function.update_eq_self _ w.slots).symm rfl rfl rfl guardFits.shared
    (by simp [idle, Role.slot]) (by simp [Role.slot]) (fun _ => guardFits)
    (fun named => absurd named (inv.unnamed (by simp [idle, Role.holds]) _)) ?_ ?_
    (w.refs (KeyData.idx guard.key)) (refs_eq rfl ?_) (inv.slots _) (inv.counts _)
  · intro other earlier
    exact Or.inl (by simp [member, show other ∈ others from earlier])
  · intro other apart
    simp [member, Ne.symm apart]
  · simp [idle, Role.refs, member]
    omega

theorem Inv.clone (inv : w.Inv) {t : T} {guard clone : Guard K V} (idle : w.role t = .none)
    (member : guard ∈ w.guards) (sameKey : clone.key = guard.key)
    (samePointee : clone.pointee = guard.pointee)
    (room : (w.slots (KeyData.idx guard.key)).refCount + 1 < 2 ^ 32)
    : Inv
        {
          w with
          slots := Function.update w.slots (KeyData.idx guard.key)
            {
              w.slots (KeyData.idx guard.key) with
              refCount := (w.slots (KeyData.idx guard.key)).refCount + 1
            }
          guards := clone ::ₘ w.guards
        } := by
  have guardFits := inv.guards guard member
  have unchanged : w.role = Function.update w.role t .none := by
    rw [← idle, Function.update_eq_self]
  refine inv.shared_transition t (KeyData.idx guard.key) .none _ unchanged rfl rfl rfl rfl
    guardFits.shared (by simp [idle, Role.slot]) (by simp [Role.slot]) (fun _ => trivial)
    (fun named => absurd named (inv.unnamed (by simp [idle, Role.holds]) _)) ?_ ?_
    (w.refs (KeyData.idx guard.key) + 1) (refs_eq unchanged ?_)
    ((inv.slots _).raise guardFits.shared) room
  · intro other cloned
    rcases Multiset.mem_cons.mp cloned with same | earlier
    · subst other
      obtain ⟨key, stored, occupied, version, pointee⟩ := guardFits
      exact Or.inr
        ⟨by rw [sameKey], key, stored, occupied, sameKey ▸ version, samePointee ▸ pointee⟩
    · exact Or.inl earlier
  · intro other apart
    simp [sameKey, Ne.symm apart]
  · simp [idle, Role.refs, sameKey]
    omega

-----------------------------------------------------------------------------------------
-- Giving up references
-----------------------------------------------------------------------------------------

/-- The last reference of a slot is released in the retired phase. -/
theorem Inv.retired_of_last (inv : w.Inv) {t : T} {idx : Nat}
    (holds : (w.role t).references idx) (last : (w.slots idx).refCount = 1)
    : ∃ key stored remover,
        w.phase idx = .retired key stored remover
        ∧ (∀ other, remover = some other → other = t)
        ∧ w.refs idx = (w.role t).refs idx := by
  obtain ⟨about, counted⟩ := refs_of_references holds
  have roleFits := inv.roles t idx about
  have fits := inv.slots idx
  rcases counted with counted | ⟨key, role, counted⟩
  · have positive := refs_pos_of_role counted
    cases phase : w.phase idx with
    | retired key stored remover =>
        simp only [phase, Slot.Fits] at fits
        refine ⟨key, stored, remover, rfl, ?_, by split at fits <;> omega⟩
        intro other named
        simp [named] at fits
        omega
    | _ =>
        simp only [phase, Slot.Fits] at fits
        omega
  · rw [role] at roleFits
    obtain ⟨key, stored, phase⟩ := roleFits
    simp only [phase, Slot.Fits, Option.isSome_some, ↓reduceIte] at fits
    refine ⟨key, stored, some t, phase, ?_, by omega⟩
    intro other named
    exact (Option.some.inj named).symm

/-- The count of a referenced slot is positive. -/
theorem Inv.positive_of_references (inv : w.Inv) {t : T} {idx : Nat}
    (holds : (w.role t).references idx)
    : 0 < (w.slots idx).refCount := by
  obtain ⟨about, counted⟩ := refs_of_references holds
  have roleFits := inv.roles t idx about
  have fits := inv.slots idx
  rcases counted with counted | ⟨key, role, counted⟩
  · have positive := refs_pos_of_role counted
    cases phase : w.phase idx <;> simp only [phase, Slot.Fits] at fits <;> omega
  · rw [role] at roleFits
    obtain ⟨key, stored, phase⟩ := roleFits
    simp only [phase, Slot.Fits] at fits
    exact fits.2.2.2.1

theorem Inv.release (inv : w.Inv) {t : T} {idx : Nat} (holds : (w.role t).references idx)
    (last : (w.slots idx).refCount = 1)
    : (w.act t (.dropping idx) idx
        { w.slots idx with refCount := wrappingSub (w.slots idx).refCount 1 }
        (.released t idx)).Inv := by
  obtain ⟨key, stored, remover, phase, named, only⟩ := inv.retired_of_last holds last
  have about := (refs_of_references holds).1
  have fits := inv.slots idx
  simp only [phase, Slot.Fits] at fits
  have zero : wrappingSub (w.slots idx).refCount 1 = 0 := by
    rw [last, wrappingSub_one (by omega) (by omega)]
  rw [zero]
  have none_left : (w.act t (.dropping idx) idx { w.slots idx with refCount := 0 }
      (.released t idx)).refs idx = 0 := by
    refine refs_eq (w := w) rfl ?_
    simp only [only, act, Role.refs]
    omega
  refine inv.transition t idx (.dropping idx) (.dropping t key stored) _ rfl rfl
    (by rw [phase_act rfl, phase]; rfl) (Or.inr about) (by simp [Role.slot])
    (fun _ => ⟨key, stored, rfl⟩) ?_
    (by intro other named; exact Or.inl ⟨(Option.some.inj named).symm, rfl⟩) ?_
    (fun _ _ => rfl) (inv.kept_free rfl (by simp [phase]) (by simp)) inv.nodup
    (inv.kept_born rfl (by simp [phase]) (by simp)) ?_ (by simp) inv.bound
    ⟨?_, inv.lawful⟩
  · -- another referent would still be counted
    intro other self otherAbout
    exfalso
    have otherFits := inv.roles other idx otherAbout
    rw [phase] at otherFits
    have uncounted : (w.role other).refs idx ≠ 1 := by
      intro counted
      have kept : ((w.act t (.dropping idx) idx { w.slots idx with refCount := 0 }
          (.released t idx)).role other).refs idx = 1 := by
        simpa [act, Function.update_of_ne self] using counted
      have positive := refs_pos_of_role kept
      omega
    cases role : w.role other <;>
      simp_all [Role.Fits, Role.refs, Role.slot]
  · intro guard member
    refine Or.inl ⟨?_, member⟩
    intro here
    have positive := refs_pos_of_guard
      (w := w.act t (.dropping idx) idx { w.slots idx with refCount := 0 }
        (.released t idx)) member
    rw [here] at positive
    omega
  · rw [none_left]
    exact ⟨fits.1, fits.2.1, rfl, rfl, fits.2.2.2.2⟩
  · intro place same
    obtain rfl := Option.some.inj same
    exact ⟨key, stored, remover, phase, named⟩

/-- Giving up a reference changes the phase only if it was the remover's. -/
theorem Inv.phase_gaveUp (inv : w.Inv) {t : T} {idx : Nat}
    (holds : (w.role t).references idx)
    : (∃ key stored,
        w.phase idx = .retired key stored (some t)
        ∧ (w.phase idx).advance (.gaveUp t idx : Event T K V) = .retired key stored none
        ∧ (w.role t).refs idx = 0)
      ∨ ((w.phase idx).advance (.gaveUp t idx : Event T K V) = w.phase idx
          ∧ (w.phase idx).holder ≠ some t
          ∧ (w.role t).refs idx = 1) := by
  obtain ⟨about, counted⟩ := refs_of_references holds
  have roleFits := inv.roles t idx about
  rcases counted with counted | ⟨key, role, counted⟩
  · have unnamed : (w.phase idx).holder ≠ some t := inv.unnamed (by
      cases role : w.role t <;> simp_all [Role.refs, Role.holds]) idx
    refine Or.inr ⟨?_, unnamed, counted⟩
    cases phase : w.phase idx <;> simp_all [Phase.advance, Phase.holder]
  · rw [role] at roleFits
    obtain ⟨found, stored, phase⟩ := roleFits
    exact Or.inl ⟨found, stored, phase, by simp [phase, Phase.advance], counted⟩

theorem Inv.giveUp (inv : w.Inv) {t : T} {idx : Nat} (holds : (w.role t).references idx)
    (more : (w.slots idx).refCount ≠ 1)
    : (w.act t .none idx
        { w.slots idx with refCount := wrappingSub (w.slots idx).refCount 1 }
        (.gaveUp t idx)).Inv := by
  have about := (refs_of_references holds).1
  have positive := inv.positive_of_references holds
  have count := inv.counts idx
  have fits := inv.slots idx
  have shared : (w.phase idx).shared := fits.shared_of_pos positive
  rw [wrappingSub_one positive count]
  rcases inv.phase_gaveUp holds with
    ⟨key, stored, phase, advanced, uncounted⟩ | ⟨advanced, unnamed, counted⟩
  · -- the remover's reference was the map's own
    simp only [phase, Slot.Fits, Option.isSome_some, ↓reduceIte] at fits
    refine inv.transition t idx .none (.retired key stored none) _ rfl rfl
      (by rw [phase_act rfl, advanced]) (Or.inr about) (by simp [Role.slot])
      (fun _ => trivial) ?_ (by simp [Phase.holder]) ?_
      (fun _ _ => rfl) (inv.kept_free rfl (by simp [phase]) (by simp)) inv.nodup
      (inv.kept_born rfl (by simp [phase]) (by simp)) ?_ (by simp; omega) inv.bound
      ⟨?_, inv.lawful⟩
    · intro other self otherAbout
      have otherFits := inv.roles other idx otherAbout
      rw [phase] at otherFits
      cases role : w.role other <;>
        simp_all [Role.Fits, Guard.Fits, Phase.occupant, Phase.shared]
    · intro guard member
      by_cases here : KeyData.idx guard.key = idx
      · have guardFits := inv.guards guard member
        rw [here, phase] at guardFits
        exact Or.inr ⟨here, guardFits⟩
      · exact Or.inl ⟨here, member⟩
    · rw [refs_act_same (by rw [uncounted]; rfl)]
      refine ⟨fits.1, fits.2.1, ?_, ?_, fits.2.2.2.2⟩
      · simp
        omega
      · simp
        omega
    · intro place same
      obtain rfl := Option.some.inj same
      exact shared
  · have refsPositive := refs_pos_of_role counted
    have notFree : w.phase idx ≠ .free := by
      intro free
      simp [free, Phase.shared] at shared
    have notUnborn : w.phase idx ≠ .unborn := by
      intro unborn
      simp [unborn, Phase.shared] at shared
    refine inv.transition t idx .none (w.phase idx) _ rfl rfl
      (by rw [phase_act rfl, advanced]) (Or.inr about) (by simp [Role.slot])
      (fun _ => trivial) (fun other _ otherAbout => inv.roles other idx otherAbout) ?_ ?_
      (fun _ _ => rfl) (inv.kept_free rfl notFree notFree) inv.nodup
      (inv.kept_born rfl notUnborn notUnborn) ?_ (by simp; omega) inv.bound
      ⟨?_, inv.lawful⟩
    · intro other named
      refine Or.inr ⟨?_, named⟩
      intro self
      exact unnamed (self ▸ named)
    · intro guard member
      by_cases here : KeyData.idx guard.key = idx
      · exact Or.inr ⟨here, here ▸ inv.guards guard member⟩
      · exact Or.inl ⟨here, member⟩
    · have lowered : (w.act t .none idx
          { w.slots idx with refCount := (w.slots idx).refCount - 1 }
          (.gaveUp t idx)).refs idx = w.refs idx - 1 := by
        have uncounted : Role.refs idx (.none : Role K V) = 0 := rfl
        refine refs_eq (w := w) rfl ?_
        rw [counted, uncounted]
        simp only [act]
        omega
      rw [lowered]
      exact Slot.Fits.lower (by rwa [Nat.sub_add_cancel refsPositive]) more
    · intro place same
      obtain rfl := Option.some.inj same
      exact shared

/-- The ownership invariant is inductive, by cases on the step. -/
theorem Inv.step (inv : w.Inv) (step : w.Step w') : w'.Inv := by
  cases step with
  | pop t idx rest idle top => exact inv.pop idle top
  | push t idle room => exact inv.push idle room
  | recycle t idx holds => exact inv.recycle holds
  | link t idx next holds => exact inv.link holds
  | write t idx stored holds fresh => exact inv.write holds fresh
  | arm t idx stored holds => exact inv.arm holds
  | publish t key stored holds version => exact inv.publish holds
  | retire t key idle current => exact inv.retire idle current
  | acquire t idx idle positive room => exact inv.acquire idle positive room
  | guard t guard holds current pointee => exact inv.guard holds current pointee
  | giveUp t idx holds more => exact inv.giveUp holds more
  | release t idx holds last => exact inv.release holds last
  | drop t idx holds => exact inv.drop holds
  | unguard t guard others idle member => exact inv.unguard idle member
  | clone t guard clone idle member sameKey samePointee room =>
      exact inv.clone idle member sameKey samePointee room
  | leak t idx holds => exact inv.leak holds
  | note event apart => exact inv.note apart

end Ownership

end AtomicSlotMap
