import AtomicSlotMap.History.Calls
import AtomicSlotMap.History.Locals
import AtomicSlotMap.Ownership.Simulation
import AtomicSlotMap.Specification.FiniteMap

/-! The abstract map that a state stands for, and how each step acts on it: only a publication
and the version exchange of a remove change it.
-/

namespace AtomicSlotMap

variable {T K V E : Type} [Key K]

namespace Sys

/-- The value bound to an index and version: that of the slot, if it has this odd version. -/
def bound (s : Sys T K V E) (place : Nat × Nat) : Option (Stored V) :=
  if (s.slots place.1).version = place.2 ∧ place.2 % 2 = 1 then (s.slots place.1).data
  else none

/-- A state stands for an abstract map. -/
def Represents (s : Sys T K V E) (map : FiniteMap V) : Prop :=
  ∀ place, map.lookup place = s.bound place

section

variable {s s' : Sys T K V E} {map : FiniteMap V}

omit [Key K] in
/-- Only versions matter, and the values of slots with an odd one. -/
theorem bound_congr (versions : ∀ idx, (s'.slots idx).version = (s.slots idx).version)
    (data
      : ∀ idx, (s.slots idx).version % 2 = 1 → (s'.slots idx).data = (s.slots idx).data)
    : s'.bound = s.bound := by
  funext place
  simp only [bound, versions]
  split
  · next current => exact data place.1 (current.1 ▸ current.2)
  · rfl

omit [Key K] in
theorem versions_of_slots (same : s'.slots = s.slots) (idx : Nat)
    : (s'.slots idx).version = (s.slots idx).version := by
  rw [same]

omit [Key K] in
theorem bound_of_slots (same : s'.slots = s.slots) : s'.bound = s.bound :=
  bound_congr (fun _ => by rw [same]) fun _ _ => by rw [same]

omit [Key K] in
/-- Changing the reference count of a slot binds nothing else. -/
theorem bound_of_refCount {idx count : Nat}
    (slots : s'.slots = Function.update s.slots idx { s.slots idx with refCount := count })
    : s'.bound = s.bound := by
  have same (other : Nat) : (s'.slots other).version = (s.slots other).version
      ∧ (s'.slots other).data = (s.slots other).data := by
    rw [slots]
    by_cases here : other = idx
    · subst other
      simp
    · simp [here]
  exact bound_congr (fun other => (same other).1) fun other _ => (same other).2

/-- What a key of the current version is bound to. -/
theorem bound_of_current {key : K}
    (same : (s.slots (KeyData.idx key)).version = KeyData.version key)
    : s.bound (KeyData.place key) = (s.slots (KeyData.idx key)).data :=
  if_pos ⟨same, KeyData.version_odd key⟩

/-- A key of another version is not bound. -/
theorem bound_of_stale {key : K}
    (stale : (s.slots (KeyData.idx key)).version ≠ KeyData.version key)
    : s.bound (KeyData.place key) = none :=
  if_neg fun current => stale current.1

omit [Key K] in
theorem Represents.not_mem (represents : s.Represents map) {place : Nat × Nat}
    (unbound : s.bound place = none)
    : place ∉ map :=
  Finmap.lookup_eq_none.mp ((represents place).trans unbound)

omit [Key K] in
theorem Represents.mem (represents : s.Represents map) {place : Nat × Nat}
    {stored : Stored V} (bound : s.bound place = some stored)
    : place ∈ map :=
  Finmap.mem_iff.mpr ⟨stored, (represents place).trans bound⟩

end

section

variable [DecidableEq T] [Fintype T] {s : Sys T K V E} {free : List Nat} {map : FiniteMap V}

/-- A key of the current version is bound to the value in its slot. -/
theorem Inv.bound_of_current (inv : s.Inv free) {key : K}
    (same : (s.slots (KeyData.idx key)).version = KeyData.version key)
    : ∃ stored, (s.slots (KeyData.idx key)).data = some stored
        ∧ s.bound (KeyData.place key) = some stored := by
  obtain ⟨found, stored, phase⟩ :=
    inv.owned.live_of_version (KeyData.idx key) same (KeyData.version_odd key)
  have fits := inv.owned.slots (KeyData.idx key)
  rw [phase] at fits
  have data : (s.slots (KeyData.idx key)).data = some stored := fits.2.2.2
  exact ⟨stored, data, (Sys.bound_of_current same).trans data⟩

/-- A slot whose reference count is zero has no current key. -/
theorem Inv.stale_of_zero (inv : s.Inv free) {key : K}
    (zero : (s.slots (KeyData.idx key)).refCount = 0)
    : (s.slots (KeyData.idx key)).version ≠ KeyData.version key := by
  intro same
  obtain ⟨found, stored, phase⟩ :=
    inv.owned.live_of_version (KeyData.idx key) same (KeyData.version_odd key)
  have fits := inv.owned.slots (KeyData.idx key)
  rw [phase] at fits
  have counted : (s.slots (KeyData.idx key)).refCount
      = 1 + (s.view free).refs (KeyData.idx key) := fits.2.2.1
  omega

/-- An index beyond the length has no current key. -/
theorem Inv.stale_of_beyond (inv : s.Inv free) {key : K} (beyond : s.len ≤ KeyData.idx key)
    : (s.slots (KeyData.idx key)).version ≠ KeyData.version key := by
  intro same
  obtain ⟨found, stored, phase⟩ :=
    inv.owned.live_of_version (KeyData.idx key) same (KeyData.version_odd key)
  have unborn := (inv.owned.born (KeyData.idx key)).mpr beyond
  cases phase.symm.trans unborn

/-- A slot that an activity could lose is not live. -/
theorem Inv.even_of_holds (inv : s.Inv free) {t : T} {idx : Nat}
    (holds : (s.pc t).role.holds = some idx)
    : (s.slots idx).version % 2 = 0 := by
  have named := (inv.owned.roles t idx (Role.slot_of_holds holds)).holder_of_holds holds
  have fits := inv.owned.slots idx
  change (s.slots idx).Fits idx _ _ at fits
  cases phase : (s.view free).phase idx with
  | unborn | free | live | lost =>
      rw [phase] at named
      cases named
  | held | filled | armed | retired | dropping | emptied =>
      rw [phase] at fits
      exact fits.1

end

end Sys

section

variable [DecidableEq T] [Fintype T] {s : Sys T K V E} {free : List Nat} {map : FiniteMap V}
  {dbg : Bool} {pc pc' : Pc K V E} {op : Op K} {res : Res K V E}

/-- A call that takes effect without changing the map answers what the abstract map does, by
cases on the move.
-/
theorem Pc.Answers.step (answers : pc.Answers dbg s res pc') (inv : s.Inv free)
    (represents : s.Represents map) (serves : pc.Serves op)
    : map.Step op res map := by
  have absent {key : K}
      (stale : (s.slots (KeyData.idx key)).version ≠ KeyData.version key) :
      KeyData.place key ∉ map :=
    represents.not_mem (Sys.bound_of_stale stale)
  cases answers with
  | closureErr idx version err =>
      cases serves
      exact .failed err
  | removeBeyond key beyond =>
      cases serves
      exact .notRemoved key (absent (inv.stale_of_beyond beyond))
  | removeStale key stale =>
      cases serves
      exact .notRemoved key (absent stale)
  | removeAgainStale key current stale =>
      cases serves
      exact .notRemoved key (absent stale)
  | getBeyond key owning beyond =>
      cases serves
      exact .missed key owning (absent (inv.stale_of_beyond beyond))
  | acquireLoadZero key owning zero =>
      cases serves
      exact .missed key owning (absent (inv.stale_of_zero zero))
  | acquireAgainZero key owning refcount zero =>
      cases serves
      exact .missed key owning (absent (inv.stale_of_zero zero))
  | acquireStale key owning stale =>
      cases serves
      exact .missed key owning (absent stale)
  | containsBeyond key beyond =>
      cases serves
      have step : map.Step (.containsKey key)
          (.contains (decide (KeyData.place key ∈ map)) : Res K V E) map := .contains key
      rwa [decide_eq_false (absent (inv.stale_of_beyond beyond))] at step
  | contains key present same =>
      cases serves
      have step : map.Step (.containsKey key)
          (.contains (decide (KeyData.place key ∈ map)) : Res K V E) map := .contains key
      rw [same]
      by_cases current : (s.slots (KeyData.idx key)).version = KeyData.version key
      · obtain ⟨stored, _, bound⟩ := inv.bound_of_current current
        rwa [decide_eq_true (represents.mem bound), ← beq_iff_eq.mpr current] at step
      · rwa [decide_eq_false (absent current), ← beq_false_of_ne current] at step
  | nextDone currentIdx beyond =>
      cases op <;> cases serves
      exact .exhausted _ currentIdx
  | lossyLen | lossyIsEmpty | capacity =>
      cases serves
      exact .beside _ _ rfl

/-- A getter that finds the current version yields a guard on the bound value. -/
theorem Getter.step {getter : Getter} {key : K} {guard : Guard K V} {stored : Stored V}
    (serves : getter.Serves key op) (bound : map.lookup (KeyData.place key) = some stored)
    (named : guard.key = key) (owned : guard.owning = getter.owning)
    (pointee : guard.pointee = some stored)
    : map.Step op (getter.acquired key guard : Res K V E) map := by
  cases getter with
  | get owning =>
      cases serves
      exact .got key owning guard stored bound named owned pointee
  | next currentIdx =>
      cases op <;> cases serves
      exact .yielded _ currentIdx key guard stored bound named pointee

end

-----------------------------------------------------------------------------------------
-- Effects of steps
-----------------------------------------------------------------------------------------

namespace Sys

variable [DecidableEq T]

/-- The moves at which a call takes effect, with its operation and result. -/
inductive Takes (dbg : Bool) (s : Sys T K V E) (t : T)
    : Op K → Res K V E → Sys T K V E → Prop
  | answered (op : Op K) (res : Res K V E) (pc : Pc K V E)
    (answers : (s.pc t).Answers dbg s res pc) (serves : (s.pc t).Serves op)
    : Takes dbg s t op res ((s.answer t res).goto t pc)
  | inserted (idx version : Nat) (stored : Stored V)
    (about : s.pc t = .insertPublish idx version stored)
    : Takes dbg s t .tryInsertWithKey (.inserted (KeyData.new idx version) stored)
        (s.publish t idx version stored)
  | removed (key : K) (current : Nat) (about : s.pc t = .removeCas key current)
    (same : (s.slots (KeyData.idx key)).version = current)
    : Takes dbg s t (.remove key) (.removed true) (s.removeExchange t key current)
  | acquired (op : Op K) (key : K) (getter : Getter) (serves : getter.Serves key op)
    (about : s.pc t = .acquireVersion key getter)
    (same : (s.slots (KeyData.idx key)).version = KeyData.version key)
    : Takes dbg s t op
        (getter.acquired key
          ⟨s.guardIds, key, getter.owning, (s.slots (KeyData.idx key)).data⟩)
        (s.acquireCheck t key getter)
  | cloned (guard : Guard K V) (about : s.pc t = .cloneInc guard)
    (bounded : (s.slots (KeyData.idx guard.key)).refCount ≤ MAX_REFCOUNT)
    : Takes dbg s t (.cloneGuard guard.id)
        (.cloned ⟨s.guardIds, guard.key, true, guard.pointee⟩) (s.cloneGuard t guard)
  | reserving (additional : Nat) (calls : (s.pc t).Calls (.reserve additional : Op K))
    : Takes dbg s t (.reserve additional) .done
        (((s.begin t (.reserve additional)).answer t .done).goto t (.reserveLen additional))
  | read (id : Nat) (guard : Guard K V) (calls : (s.pc t).Calls (.derefGuard id : Op K))
    (found : s.guards.find? (·.id == id) = some guard)
    : Takes dbg s t (.derefGuard id) (.read (s.slots (KeyData.idx guard.key)).data)
        (((s.begin t (.derefGuard id)).answer t
          (.read (s.slots (KeyData.idx guard.key)).data)).goto t
          (.ret (.read (s.slots (KeyData.idx guard.key)).data)))
  | unguarding (id : Nat) (guard : Guard K V) (calls : (s.pc t).Calls (.dropGuard id : Op K))
    (found : s.guards.find? (·.id == id) = some guard)
    : Takes dbg s t (.dropGuard id) .done
        ((({ s with guards := s.guards.eraseP (·.id == id) }.begin t (.dropGuard id)).answer t
          .done).goto t (.waitForChunk (KeyData.idx guard.key) (.unguardDec guard)))
  | forgot (id : Nat) (guard : Guard K V) (calls : (s.pc t).Calls (.forgetGuard id : Op K))
    (found : s.guards.find? (·.id == id) = some guard)
    : Takes dbg s t (.forgetGuard id) .done
        ((({
            s with
            guards := s.guards.eraseP (·.id == id)
            forgotten := guard :: s.forgotten
          }.begin t (.forgetGuard id)).answer t .done).goto t (.ret .done))

/-- A step at which no call takes effect: versions stay, values of occupied slots stay, and
so do the guards.
-/
structure Silent (s s' : Sys T K V E) : Prop where
  effects : Library.effects s'.history = Library.effects s.history
  versions : ∀ idx, (s'.slots idx).version = (s.slots idx).version
  data : ∀ idx, (s.slots idx).version % 2 = 1 → (s'.slots idx).data = (s.slots idx).data
  guards : s'.guards = s.guards
  guardIds : s'.guardIds = s.guardIds

variable {s s' s'' : Sys T K V E} {t : T} {dbg : Bool} {free : List Nat}

omit [Key K] [DecidableEq T] in
theorem Silent.of_same (history : s'.history = s.history) (slots : s'.slots = s.slots)
    (guards : s'.guards = s.guards) (guardIds : s'.guardIds = s.guardIds)
    : s.Silent s' where
  effects := by rw [history]
  versions := fun _ => by rw [slots]
  data := fun _ _ => by rw [slots]
  guards := guards
  guardIds := guardIds

omit [Key K] [DecidableEq T] in
/-- Changing one slot but not its version, nor its value if it is occupied. -/
theorem Silent.of_slot {idx : Nat} {slot : Slot V} (history : s'.history = s.history)
    (slots : s'.slots = Function.update s.slots idx slot) (guards : s'.guards = s.guards)
    (guardIds : s'.guardIds = s.guardIds) (version : slot.version = (s.slots idx).version)
    (data : (s.slots idx).version % 2 = 1 → slot.data = (s.slots idx).data)
    : s.Silent s' where
  effects := by rw [history]
  versions := by
    intro other
    rw [slots]
    by_cases same : other = idx
    · subst other
      rw [Function.update_self]
      exact version
    · rw [Function.update_of_ne same]
  data := by
    intro other odd
    rw [slots]
    by_cases same : other = idx
    · subst other
      rw [Function.update_self]
      exact data odd
    · rw [Function.update_of_ne same]
  guards := guards
  guardIds := guardIds

omit [Key K] [DecidableEq T] in
theorem Silent.bound (silent : s.Silent s') : s'.bound = s.bound :=
  bound_congr silent.versions silent.data

omit [Key K] [DecidableEq T] in
theorem Silent.trans (first : s.Silent s') (second : s'.Silent s'') : s.Silent s'' where
  effects := second.effects.trans first.effects
  versions := fun idx => (second.versions idx).trans (first.versions idx)
  data := fun idx odd =>
    (second.data idx (by rwa [first.versions])).trans (first.data idx odd)
  guards := second.guards.trans first.guards
  guardIds := second.guardIds.trans first.guardIds

omit [Key K] in
/-- A panic is silent. -/
theorem silent_unwind (s : Sys T K V E) (t : T) : s.Silent (s.unwind t) :=
  .of_same (history_unwind s t) (slots_unwind s t) (alike_unwind s t).guards
    (alike_unwind s t).guardIds

omit [Key K] in
/-- The end of a call is silent. -/
theorem silent_finish {event : Nat → HistoryEvent K V E} {pc : Pc K V E}
    (no_effect : ∀ id, (event id).effect? = none)
    : s.Silent ((s.finish t event).goto t pc) := by
  rw [finish]
  split
  · next id op current =>
    refine ⟨?_, fun _ => rfl, fun _ _ => rfl, rfl, rfl⟩
    exact Library.effects_concat (no_effect id)
  · exact .of_same rfl rfl rfl rfl

omit [Key K] in
/-- The start of a call that takes effect later is silent. -/
theorem silent_begin {op : Op K} {pc : Pc K V E} : s.Silent ((s.begin t op).goto t pc) where
  effects := Library.effects_concat rfl
  versions := fun _ => rfl
  data := fun _ _ => rfl
  guards := rfl
  guardIds := rfl

omit [Key K] in
/-- An answer is the effect of the running call. -/
theorem effects_answer {id : Nat} {op : Op K} {res : Res K V E} {pc : Pc K V E}
    (current : s.current t = some (id, op))
    : Library.effects ((s.answer t res).goto t pc).history
      = Library.effects s.history ++ [⟨id, op, res⟩] := by
  simp only [answer, current]
  exact Library.effects_concat_lin s.history id op res

omit [Key K] in
/-- A call that takes effect as it is made. -/
theorem effects_begin {op : Op K} {res : Res K V E} {pc : Pc K V E}
    : Library.effects (((s.begin t op).answer t res).goto t pc).history
      = Library.effects s.history ++ [⟨s.calls, op, res⟩] := by
  have current : (s.begin t op).current t = some (s.calls, op) := by simp [begin]
  rw [effects_answer current]
  congr 1
  exact Library.effects_concat rfl

/-- A step is silent or a call takes effect, by cases on the move. -/
theorem Inv.takes [Fintype T] (inv : s.Inv free) (tracked : s.Tracked)
    (moves : s.Moves dbg t s')
    : s.Silent s'
      ∨ ∃ id op res, s'.current t = some (id, op)
          ∧ Library.effects s'.history = Library.effects s.history ++ [⟨id, op, res⟩]
          ∧ s.Takes dbg t op res s' := by
  have held {idx : Nat} (holds : (s.pc t).role.holds = some idx) :
      (s.slots idx).version % 2 ≠ 1 := by
    have even := inv.even_of_holds holds
    omega
  have running (busy : (s.pc t).busy = true) :
      ∃ id op, s.current t = some (id, op) ∧ (s.pc t).Serves op := by
    obtain ⟨id, op, current, running⟩ := tracked.exists_running (Pc.awake_of_busy busy).2
    exact ⟨id, op, current, running.serves⟩
  have answering (staged : Sys T K V E) {id : Nat} {op : Op K} {res : Res K V E}
      (current : staged.current t = some (id, op)) :
      (staged.answer t res).current t = some (id, op) :=
    (congrFun (current_answer staged t res) t).trans current
  have calling (staged : Sys T K V E) (op : Op K) :
      (staged.begin t op).current t = some (staged.calls, op) :=
    Function.update_self ..
  cases moves with
  | stay => exact Or.inl (.of_same rfl rfl rfl rfl)
  | go pc goes => exact Or.inl (.of_same rfl rfl rfl rfl)
  | answered res pc answers =>
      obtain ⟨id, op, current, serves⟩ := running answers.busy
      exact Or.inr ⟨id, op, res, answering s current, effects_answer current,
        .answered op res pc answers serves⟩
  | failed fails => exact Or.inl (silent_unwind s t)
  | popped old next seen about same => exact Or.inl (.of_same rfl rfl rfl rfl)
  | pushed about => exact Or.inl (.of_same rfl rfl rfl rfl)
  | wrote idx version value about =>
      refine Or.inl (.of_slot rfl rfl rfl rfl rfl fun odd => absurd odd (held ?_))
      rw [about]
      rfl
  | armed idx version stored about =>
      exact Or.inl (.of_slot rfl rfl rfl rfl rfl fun _ => rfl)
  | published idx version stored about =>
      obtain ⟨id, op, current, serves⟩ := running (by rw [about]; rfl)
      rw [about] at serves
      cases serves
      exact Or.inr ⟨id, _, _, answering _ current, effects_answer current,
        .inserted idx version stored about⟩
  | counted key stored about => exact Or.inl (.of_same rfl rfl rfl rfl)
  | allocated chunk after about => exact Or.inl (.of_same rfl rfl rfl rfl)
  | installed chunk new after about absent => exact Or.inl (.of_same rfl rfl rfl rfl)
  | deallocated new after about => exact Or.inl (.of_same rfl rfl rfl rfl)
  | linked idx old after about =>
      exact Or.inl (.of_slot rfl rfl rfl rfl rfl fun _ => rfl)
  | recycled idx old after about same => exact Or.inl (.of_same rfl rfl rfl rfl)
  | dropped idx after about =>
      refine Or.inl (.of_slot rfl rfl rfl rfl rfl fun odd => absurd odd (held ?_))
      rw [about]
      rfl
  | dropPanicked idx after about =>
      have emptied : s.Silent (s.dropInnerValue t idx) :=
        .of_slot rfl rfl rfl rfl rfl fun odd => absurd odd (held (by rw [about]; rfl))
      exact Or.inl (emptied.trans (silent_unwind _ t))
  | retired key current about same =>
      obtain ⟨id, op, running, serves⟩ := running (by rw [about]; rfl)
      rw [about] at serves
      cases serves
      refine Or.inr ⟨id, _, _, ?_, ?_, .removed key current about same⟩
      all_goals simp only [removeExchange, if_pos same]
      · exact answering _ running
      · exact effects_answer running
  | decremented idx needsDrop otherwise decrements =>
      left
      rw [decRefCount]
      split <;> exact .of_slot rfl rfl rfl rfl rfl fun _ => rfl
  | discounted key about => exact Or.inl (.of_same rfl rfl rfl rfl)
  | acquired key getter refcount about same =>
      exact Or.inl (.of_slot rfl rfl rfl rfl rfl fun _ => rfl)
  | guarded key getter about same =>
      obtain ⟨id, op, current, serves⟩ := running (by rw [about]; rfl)
      rw [about] at serves
      refine Or.inr ⟨id, op, _, ?_, ?_, .acquired op key getter serves about same⟩
      all_goals simp only [acquireCheck, if_pos same]
      · exact answering _ current
      · exact effects_answer current
  | cloned guard about =>
      obtain ⟨id, op, current, serves⟩ := running (by rw [about]; rfl)
      rw [about] at serves
      cases serves
      by_cases bounded : (s.slots (KeyData.idx guard.key)).refCount ≤ MAX_REFCOUNT
      · refine Or.inr ⟨id, _, _, ?_, ?_, .cloned guard about bounded⟩
        all_goals simp only [cloneGuard, if_pos bounded]
        · exact answering _ current
        · exact effects_answer current
      · left
        simp only [cloneGuard, if_neg bounded]
        refine Silent.trans ?_ (silent_unwind _ t)
        exact .of_slot rfl rfl rfl rfl rfl fun _ => rfl
  | began op pc calls starts => exact Or.inl silent_begin
  | beganReserve additional calls =>
      exact Or.inr ⟨_, _, _, answering _ (calling s _), effects_begin,
        .reserving additional calls⟩
  | beganDeref id guard calls found =>
      exact Or.inr ⟨_, _, _, answering _ (calling s _), effects_begin,
        .read id guard calls found⟩
  | beganDrop id guard calls found unborrowed =>
      exact Or.inr ⟨_, _, _, answering _ (calling _ _), effects_begin,
        .unguarding id guard calls found⟩
  | beganForget id guard calls found unborrowed =>
      exact Or.inr ⟨_, _, _, answering _ (calling _ _), effects_begin,
        .forgot id guard calls found⟩
  | returned res about => exact Or.inl (silent_finish fun _ => rfl)
  | unwound about => exact Or.inl (silent_finish fun _ => rfl)

end Sys

end AtomicSlotMap
