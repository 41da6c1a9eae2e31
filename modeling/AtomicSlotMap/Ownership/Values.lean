import AtomicSlotMap.Ownership.Lifecycle
import Mathlib.Data.List.Chain

/-! The values in a lawful trace: each is written once, is in at most one slot, and is dropped
at most once.
-/

namespace AtomicSlotMap

variable {T K V E : Type} [Key K]

/-- The value a slot contains in a phase. -/
def Phase.content : Phase T K V → Option (Stored V)
  | .filled _ stored | .armed _ stored | .live _ stored | .retired _ stored _
  | .dropping _ _ stored => some stored
  | _ => none

/-- Whether an event drops the value written as this serial number. -/
def Event.drops (serial : Nat) : Event T K V → Bool
  | .dropped _ _ (some stored) => stored.serial == serial
  | _ => false

/-- How often the value written as this serial number was dropped. -/
def drops (serial : Nat) (trace : List (Event T K V)) : Nat := trace.countP (·.drops serial)

variable [DecidableEq T] {trace earlier later : List (Event T K V)} {event : Event T K V}

/-- An event that neither writes nor drops leaves the content of its phase alone, by cases on the
event.
-/
theorem Phase.Allows.content_advance {phase : Phase T K V} {length : Nat}
    (allowed : phase.Allows length event)
    (writes : ∀ actor idx stored, event ≠ .wrote actor idx stored)
    (drops : ∀ actor idx data, event ≠ .dropped actor idx data)
    : (phase.advance event).content = phase.content := by
  cases event with
  | wrote actor idx stored => exact absurd rfl (writes actor idx stored)
  | dropped actor idx data => exact absurd rfl (drops actor idx data)
  | pushed | popped | published =>
      simp only [Phase.Allows] at allowed
      subst allowed
      rfl
  | recycled | leaked =>
      rcases allowed with rfl | rfl
      · rfl
      · rfl
  | armed =>
      obtain ⟨stored, rfl⟩ := allowed
      rfl
  | retired =>
      obtain ⟨key, stored, rfl, _⟩ := allowed
      rfl
  | released =>
      obtain ⟨key, stored, remover, rfl, _⟩ := allowed
      rfl
  | gaveUp => cases phase <;> rfl
  | counted | discounted | allocated | installed | deallocated => rfl

/-- What an event does to the contents of the slots: it writes a fresh value to an empty slot,
drops the value of a slot, or leaves all contents alone.
-/
theorem Lawful.content_cases (lawful : Lawful (event :: earlier))
    : (∃ actor idx stored,
        event = .wrote actor idx stored
        ∧ stored.serial = earlier.length
        ∧ (phaseOf earlier idx).content = none
        ∧ ∀ other, (phaseOf (event :: earlier) other).content
            = if other = idx then some stored else (phaseOf earlier other).content)
      ∨ (∃ actor idx stored,
          event = .dropped actor idx (some stored)
          ∧ (phaseOf earlier idx).content = some stored
          ∧ ∀ other, (phaseOf (event :: earlier) other).content
              = if other = idx then none else (phaseOf earlier other).content)
      ∨ ((∀ serial, event.drops serial = false)
          ∧ (∀ actor idx stored, event ≠ .wrote actor idx stored)
          ∧ ∀ other, (phaseOf (event :: earlier) other).content
              = (phaseOf earlier other).content) := by
  cases place : event.slot with
  | none =>
      refine Or.inr (Or.inr ⟨?_, ?_, ?_⟩)
      · intro serial
        cases event <;> simp_all [Event.slot, Event.drops]
      · rintro actor idx stored rfl
        cases place
      · intro other
        rw [phaseOf_cons_apart place]
  | some idx =>
      have allowed := lawful.1 idx place
      have others (other : Nat) : (phaseOf (event :: earlier) other).content
          = if other = idx then ((phaseOf earlier idx).advance event).content
            else (phaseOf earlier other).content := by
        rw [phaseOf_cons place]
        by_cases same : other = idx <;> simp [same]
      cases event with
      | wrote actor _ stored =>
          obtain rfl := Option.some.inj place
          refine Or.inl ⟨actor, _, stored, rfl, allowed.2, ?_, others⟩
          rw [allowed.1]
          rfl
      | dropped actor _ data =>
          obtain rfl := Option.some.inj place
          obtain ⟨key, stored, phase, rfl⟩ := allowed
          refine Or.inr (Or.inl ⟨actor, _, stored, rfl, ?_, others⟩)
          rw [phase]
          rfl
      | _ =>
          refine Or.inr (Or.inr ⟨fun _ => rfl, by simp, ?_⟩)
          intro other
          rw [others, allowed.content_advance (by simp) (by simp)]
          split
          · next same => rw [same]
          · rfl

/-- Where the values of a trace are. -/
structure Accounted (trace : List (Event T K V)) : Prop where
  fresh : ∀ idx stored, (phaseOf trace idx).content = some stored → stored.serial < trace.length
  apart
    : ∀ idx idx' stored stored', (phaseOf trace idx).content = some stored →
        (phaseOf trace idx').content = some stored' → stored.serial = stored'.serial →
        idx = idx'
  present
    : ∀ idx stored, (phaseOf trace idx).content = some stored → drops stored.serial trace = 0
  future : ∀ serial, trace.length ≤ serial → drops serial trace = 0
  once : ∀ serial, drops serial trace ≤ 1
  kept
    : ∀ actor idx stored, .wrote actor idx stored ∈ trace → drops stored.serial trace = 0 →
        (phaseOf trace idx).content = some stored

omit [Key K] [DecidableEq T] in
/-- A drop counts for the value it drops. -/
theorem drops_cons_dropped (actor : T) (idx : Nat) (stored : Stored V) (serial : Nat)
    : drops serial ((.dropped actor idx (some stored) : Event T K V) :: trace)
      = drops serial trace + if stored.serial = serial then 1 else 0 := by
  simp [drops, List.countP_cons, Event.drops]

omit [Key K] [DecidableEq T] in
/-- Events that drop nothing do not count. -/
theorem drops_cons_of_not (serial : Nat) (quiet : event.drops serial = false)
    : drops serial (event :: trace) = drops serial trace := by
  simp [drops, quiet]

/-- Writing a fresh value keeps the account. -/
theorem Accounted.wrote {actor : T} {idx : Nat} {stored : Stored V}
    (account : Accounted earlier) (fresh : stored.serial = earlier.length)
    (empty : (phaseOf earlier idx).content = none)
    (contents
      : ∀ other, (phaseOf ((.wrote actor idx stored : Event T K V) :: earlier) other).content
          = if other = idx then some stored else (phaseOf earlier other).content)
    : Accounted ((.wrote actor idx stored : Event T K V) :: earlier) := by
  have same (serial : Nat) :
      drops serial ((.wrote actor idx stored : Event T K V) :: earlier) = drops serial earlier :=
    drops_cons_of_not serial rfl
  have cases (other : Nat) (value : Stored V)
      (found : (phaseOf ((.wrote actor idx stored : Event T K V) :: earlier) other).content
        = some value) :
      (other = idx ∧ value = stored)
      ∨ (other ≠ idx ∧ (phaseOf earlier other).content = some value) := by
    rw [contents] at found
    by_cases here : other = idx
    · rw [if_pos here] at found
      exact Or.inl ⟨here, (Option.some.inj found).symm⟩
    · rw [if_neg here] at found
      exact Or.inr ⟨here, found⟩
  refine ⟨?_, ?_, ?_, ?_, ?_, ?_⟩
  · intro other value found
    simp only [List.length_cons]
    rcases cases other value found with ⟨_, rfl⟩ | ⟨_, found⟩
    · omega
    · have := account.fresh other value found
      omega
  · intro other other' value value' found found' serials
    rcases cases other value found with ⟨here, rfl⟩ | ⟨_, before⟩ <;>
      rcases cases other' value' found' with ⟨here', rfl⟩ | ⟨_, before'⟩
    · exact here.trans here'.symm
    · have := account.fresh other' value' before'
      omega
    · have := account.fresh other value before
      omega
    · exact account.apart other other' value value' before before' serials
  · intro other value found
    rw [same]
    rcases cases other value found with ⟨_, rfl⟩ | ⟨_, found⟩
    · exact account.future _ (by omega)
    · exact account.present other value found
  · intro serial beyond
    rw [same]
    exact account.future serial (by simp only [List.length_cons] at beyond; omega)
  · intro serial
    rw [same]
    exact account.once serial
  · intro writer other value member undropped
    rw [same] at undropped
    rw [contents]
    rcases List.mem_cons.mp member with now | before
    · cases now
      simp
    · have found := account.kept writer other value before undropped
      rw [if_neg]
      · exact found
      · rintro rfl
        rw [empty] at found
        cases found

/-- Dropping the value of a slot keeps the account. -/
theorem Accounted.dropped {actor : T} {idx : Nat} {stored : Stored V}
    (account : Accounted earlier) (full : (phaseOf earlier idx).content = some stored)
    (contents
      : ∀ other,
          (phaseOf ((.dropped actor idx (some stored) : Event T K V) :: earlier) other).content
          = if other = idx then none else (phaseOf earlier other).content)
    : Accounted ((.dropped actor idx (some stored) : Event T K V) :: earlier) := by
  have past := account.fresh idx stored full
  have undropped := account.present idx stored full
  have elsewhere (other : Nat) (value : Stored V)
      (found : (phaseOf ((.dropped actor idx (some stored) : Event T K V) :: earlier)
        other).content = some value) :
      other ≠ idx ∧ (phaseOf earlier other).content = some value := by
    rw [contents] at found
    by_cases here : other = idx
    · rw [if_pos here] at found
      cases found
    · rw [if_neg here] at found
      exact ⟨here, found⟩
  refine ⟨?_, ?_, ?_, ?_, ?_, ?_⟩
  · intro other value found
    have := account.fresh other value (elsewhere other value found).2
    simp only [List.length_cons]
    omega
  · intro other other' value value' found found' serials
    exact account.apart other other' value value' (elsewhere other value found).2
      (elsewhere other' value' found').2 serials
  · intro other value found
    obtain ⟨away, before⟩ := elsewhere other value found
    rw [drops_cons_dropped, account.present other value before, if_neg]
    intro serials
    exact away (account.apart other idx value stored before full serials.symm)
  · intro serial beyond
    simp only [List.length_cons] at beyond
    rw [drops_cons_dropped, account.future serial (by omega), if_neg (by omega)]
  · intro serial
    rw [drops_cons_dropped]
    split
    · next same =>
      subst same
      rw [undropped]
    · exact account.once serial
  · intro writer other value member none_yet
    rw [drops_cons_dropped] at none_yet
    rcases List.mem_cons.mp member with now | before
    · cases now
    · have found := account.kept writer other value before (by omega)
      rw [contents, if_neg]
      · exact found
      · rintro rfl
        rw [full] at found
        cases found
        simp at none_yet

/-- Every lawful trace accounts for its values, by induction on the trace. -/
theorem Lawful.accounted (lawful : Lawful trace) : Accounted trace := by
  induction trace with
  | nil =>
      refine ⟨?_, ?_, ?_, ?_, ?_, ?_⟩ <;> simp [phaseOf, Phase.content, drops]
  | cons event earlier ih =>
      have account := ih lawful.2
      rcases lawful.content_cases with
        ⟨actor, idx, stored, rfl, fresh, empty, contents⟩
        | ⟨actor, idx, stored, rfl, full, contents⟩
        | ⟨undropped, unwritten, contents⟩
      · exact account.wrote fresh empty contents
      · exact account.dropped full contents
      · have same (serial : Nat) : drops serial (event :: earlier) = drops serial earlier :=
          drops_cons_of_not serial (undropped serial)
        refine ⟨?_, ?_, ?_, ?_, ?_, ?_⟩
        · intro idx stored found
          rw [contents] at found
          exact Nat.lt_succ_of_lt (account.fresh idx stored found)
        · intro idx idx' stored stored' found found'
          rw [contents] at found found'
          exact account.apart idx idx' stored stored' found found'
        · intro idx stored found
          rw [contents] at found
          rw [same]
          exact account.present idx stored found
        · intro serial beyond
          rw [same]
          exact account.future serial (Nat.le_of_succ_le beyond)
        · intro serial
          rw [same]
          exact account.once serial
        · intro actor idx stored member undropped
          rw [same] at undropped
          rw [contents]
          refine account.kept actor idx stored ?_ undropped
          exact (List.mem_cons.mp member).resolve_left fun now => unwritten _ _ _ now.symm

-----------------------------------------------------------------------------------------
-- How a slot came into its phase
-----------------------------------------------------------------------------------------

/-- The events that led a slot into its phase, latest first. -/
def Phase.Told (trace : List (Event T K V)) (idx : Nat) : Phase T K V → Prop
  | .filled actor stored => [.wrote actor idx stored].Sublist trace
  | .armed actor stored => [.armed actor idx, .wrote actor idx stored].Sublist trace
  | .live key stored =>
      KeyData.idx key = idx
      ∧ ∃ actor,
          [.published actor key stored, .armed actor idx, .wrote actor idx stored].Sublist
            trace
  | .retired key stored _ =>
      KeyData.idx key = idx
      ∧ ∃ remover key' actor,
          KeyData.idx key' = idx
          ∧ KeyData.version key' = KeyData.version key
          ∧ [
              .retired remover key', .published actor key stored, .armed actor idx,
              .wrote actor idx stored
            ].Sublist trace
  | .dropping holder key stored =>
      KeyData.idx key = idx
      ∧ ∃ remover key' actor,
          KeyData.idx key' = idx
          ∧ KeyData.version key' = KeyData.version key
          ∧ [
              .released holder idx, .retired remover key', .published actor key stored,
              .armed actor idx, .wrote actor idx stored
            ].Sublist trace
  | .lost => ∃ actor, .leaked actor idx ∈ trace
  | _ => True

omit [DecidableEq T] in
/-- More events do not undo what was told. -/
theorem Phase.Told.cons {phase : Phase T K V} {idx : Nat} (told : phase.Told earlier idx)
    : phase.Told (event :: earlier) idx := by
  cases phase with
  | filled actor stored => exact List.Sublist.cons _ told
  | armed actor stored => exact List.Sublist.cons _ told
  | live key stored => exact ⟨told.1, told.2.imp fun _ sublist => sublist.cons _⟩
  | retired key stored remover =>
      obtain ⟨place, remover, key', actor, place', version, sublist⟩ := told
      exact ⟨place, remover, key', actor, place', version, sublist.cons _⟩
  | dropping holder key stored =>
      obtain ⟨place, remover, key', actor, place', version, sublist⟩ := told
      exact ⟨place, remover, key', actor, place', version, sublist.cons _⟩
  | lost => exact told.imp fun _ member => List.mem_cons_of_mem _ member
  | _ => trivial

/-- In a lawful trace every phase was reached through the events of its slot, by induction on
the trace.
-/
theorem Lawful.told (lawful : Lawful trace) (idx : Nat) : (phaseOf trace idx).Told trace idx := by
  induction trace with
  | nil => trivial
  | cons event earlier ih =>
      have told := ih lawful.2
      by_cases about : event.slot = some idx
      · rw [phaseOf_cons about, Function.update_self]
        have allowed := lawful.1 idx about
        cases event with
        | wrote actor _ stored =>
            obtain rfl := Option.some.inj about
            exact (List.nil_sublist _).cons_cons _
        | armed actor _ =>
            obtain rfl := Option.some.inj about
            obtain ⟨stored, phase⟩ := allowed
            rw [phase] at told ⊢
            exact told.cons_cons _
        | published actor key stored =>
            obtain rfl := Option.some.inj about
            rw [show phaseOf earlier _ = _ from allowed] at told ⊢
            exact ⟨rfl, actor, told.cons_cons _⟩
        | retired actor key' =>
            obtain rfl := Option.some.inj about
            obtain ⟨key, stored, phase, place, version⟩ := allowed
            rw [phase] at told ⊢
            obtain ⟨_, inserter, sublist⟩ := told
            exact ⟨place, actor, key', inserter, rfl, version.symm, sublist.cons_cons _⟩
        | released actor _ =>
            obtain rfl := Option.some.inj about
            obtain ⟨key, stored, remover, phase, _⟩ := allowed
            rw [phase] at told ⊢
            obtain ⟨place, remover, key', inserter, place', version, sublist⟩ := told
            exact ⟨place, remover, key', inserter, place', version, sublist.cons_cons _⟩
        | leaked actor _ =>
            obtain rfl := Option.some.inj about
            exact ⟨actor, List.mem_cons_self⟩
        | gaveUp actor _ =>
            cases phase : phaseOf earlier idx with
            | retired key stored remover =>
                rw [phase] at told
                exact (show (Phase.retired key stored _).Told _ idx from told).cons
            | _ =>
                rw [phase] at told
                exact told.cons
        | _ => trivial
      · have kept : phaseOf (event :: earlier) idx = phaseOf earlier idx := by
          simp [phaseOf, about]
        rw [kept]
        exact told.cons

-----------------------------------------------------------------------------------------
-- What follows a drop
-----------------------------------------------------------------------------------------

omit [DecidableEq T] in
/-- The events about a slot, latest first. -/
def slotTrace (trace : List (Event T K V)) (idx : Nat) : List (Event T K V) :=
  trace.filter fun event => event.slot = some idx

/-- What comes next after a drop and after a recycling of a slot. -/
def Event.Succeeds (idx : Nat) (next before : Event T K V) : Prop :=
  (∀ actor data, before = .dropped actor idx data →
    next = .recycled actor idx ∨ next = .leaked actor idx)
  ∧ ∀ actor, before = .recycled actor idx → ∃ popper, next = .popped popper idx

/-- The phase of a slot is what its latest event made of an earlier phase. -/
theorem phaseOf_of_latest {idx : Nat} (latest : event ∈ (slotTrace trace idx).head?)
    : ∃ phase : Phase T K V, phaseOf trace idx = phase.advance event := by
  induction trace with
  | nil => cases latest
  | cons first earlier ih =>
      by_cases about : first.slot = some idx
      · simp only [slotTrace, List.filter_cons, about, decide_true, ↓reduceIte,
          List.head?_cons, Option.mem_some_iff] at latest
        subst latest
        exact ⟨phaseOf earlier idx, by simp [phaseOf, about]⟩
      · simp only [slotTrace, List.filter_cons, about, decide_false, Bool.false_eq_true,
          ↓reduceIte] at latest
        obtain ⟨phase, reached⟩ := ih latest
        exact ⟨phase, by simp [phaseOf, about, reached]⟩

/-- In a lawful trace whoever drops a value puts the slot back next (or loses it), and from
then on the slot waits to be popped; by induction on the trace.
-/
theorem Lawful.succeeds (lawful : Lawful trace) (idx : Nat)
    : (slotTrace trace idx).IsChain (Event.Succeeds idx) := by
  induction trace with
  | nil => exact .nil
  | cons event earlier ih =>
      by_cases about : event.slot = some idx
      · simp only [slotTrace, List.filter_cons, about, decide_true, ↓reduceIte]
        refine List.isChain_cons.mpr ⟨?_, ih lawful.2⟩
        intro before latest
        have allowed := lawful.1 idx about
        obtain ⟨phase, reached⟩ := phaseOf_of_latest latest
        rw [reached] at allowed
        refine ⟨?_, ?_⟩
        · rintro actor data rfl
          cases event <;>
            simp_all [Phase.Allows, Phase.advance, Phase.shared, Event.slot]
        · rintro actor rfl
          cases event <;>
            simp_all [Phase.Allows, Phase.advance, Phase.shared, Event.slot]
      · simp only [slotTrace, List.filter_cons, about, decide_false, Bool.false_eq_true,
          ↓reduceIte]
        exact ih lawful.2

end AtomicSlotMap
