import AtomicSlotMap.Implementation.Steps

/-! The life of a slot, as the trace tells it. A slot is claimed, filled, published, retired,
released and recycled; the phase of a slot names who holds it and what it contains.
-/

namespace AtomicSlotMap

variable {T K V E : Type} [Key K]

/-- Where a slot stands in its life. -/
inductive Phase (T K V : Type)
  /-- Beyond the length of the vector. -/
  | unborn
  /-- On the free list. -/
  | free
  /-- Held by one activity, without a value. -/
  | held (holder : T)
  /-- Held by the inserting activity, the value written. -/
  | filled (holder : T) (stored : Stored V)
  /-- Held by the inserting activity, the map's reference stored as well. -/
  | armed (holder : T) (stored : Stored V)
  /-- Occupied. -/
  | live (key : K) (stored : Stored V)
  /-- Removed but referenced; `remover` still owns the map's reference. -/
  | retired (key : K) (stored : Stored V) (remover : Option T)
  /-- Removed, the last reference released by the holder, who drops the value next. -/
  | dropping (holder : T) (key : K) (stored : Stored V)
  /-- Held by the activity that dropped its value, which puts it back next. -/
  | emptied (holder : T)
  /-- Given up by a call that unwound. -/
  | lost

/-- Whether the reference count of a slot in this phase is positive. -/
def Phase.shared : Phase T K V → Prop
  | .armed _ _ | .live _ _ | .retired _ _ _ => True
  | _ => False

/-- The slot an event is about. -/
def Event.slot : Event T K V → Option Nat
  | .pushed _ idx | .popped _ idx | .recycled _ idx | .wrote _ idx _ | .armed _ idx
  | .gaveUp _ idx | .released _ idx | .dropped _ idx _ | .leaked _ idx => some idx
  | .published _ key _ | .retired _ key => some (KeyData.idx key)
  | .counted .. | .discounted .. | .allocated .. | .installed .. | .deallocated .. => none

/-- The phase after an event on the slot. An event that does not fit leaves the phase. -/
def Phase.advance [DecidableEq T] (phase : Phase T K V) : Event T K V → Phase T K V
  | .pushed actor _ | .popped actor _ => .held actor
  | .recycled _ _ => .free
  | .wrote actor _ stored => .filled actor stored
  | .armed actor _ =>
      match phase with
      | .filled _ stored => .armed actor stored
      | other => other
  | .published _ key stored => .live key stored
  | .retired actor _ =>
      match phase with
      | .live key stored => .retired key stored (some actor)
      | other => other
  | .gaveUp actor _ =>
      match phase with
      | .retired key stored remover =>
          .retired key stored (if remover = some actor then none else remover)
      | other => other
  | .released actor _ =>
      match phase with
      | .retired key stored _ => .dropping actor key stored
      | other => other
  | .dropped actor _ _ => .emptied actor
  | .leaked _ _ => .lost
  | .counted .. | .discounted .. | .allocated .. | .installed .. | .deallocated .. => phase

/-- The phase of a slot after a trace. -/
def phaseOf [DecidableEq T] : List (Event T K V) → Nat → Phase T K V
  | [], _ => .unborn
  | event :: earlier, idx =>
      if event.slot = some idx then (phaseOf earlier idx).advance event
      else phaseOf earlier idx

/-- Which events may happen to a slot in a phase, after a trace of the given length. -/
def Phase.Allows (phase : Phase T K V) (length : Nat) : Event T K V → Prop
  | .pushed _ _ => phase = .unborn
  | .popped _ _ => phase = .free
  | .recycled actor _ | .leaked actor _ => phase = .held actor ∨ phase = .emptied actor
  | .wrote actor _ stored => phase = .held actor ∧ stored.serial = length
  | .armed actor _ => ∃ stored, phase = .filled actor stored
  | .published actor _ stored => phase = .armed actor stored
  | .retired _ key =>
      ∃ key' stored,
        phase = .live key' stored
        ∧ KeyData.idx key' = KeyData.idx key
        ∧ KeyData.version key' = KeyData.version key
  | .gaveUp .. => phase.shared
  | .released actor _ =>
      ∃ key stored remover,
        phase = .retired key stored remover ∧ ∀ other, remover = some other → other = actor
  | .dropped actor _ data =>
      ∃ key stored, phase = .dropping actor key stored ∧ data = some stored
  | .counted .. | .discounted .. | .allocated .. | .installed .. | .deallocated .. => True

/-- Each event of the trace is allowed by the phase its slot was in. -/
def Lawful [DecidableEq T] : List (Event T K V) → Prop
  | [] => True
  | event :: earlier =>
      (∀ idx, event.slot = some idx → (phaseOf earlier idx).Allows earlier.length event)
      ∧ Lawful earlier

section

variable [DecidableEq T]

/-- An event changes the phase of its own slot only. -/
theorem phaseOf_cons {event : Event T K V} {earlier : List (Event T K V)} {idx : Nat}
    (about : event.slot = some idx)
    : phaseOf (event :: earlier)
      = Function.update (phaseOf earlier) idx ((phaseOf earlier idx).advance event) := by
  funext other
  by_cases same : other = idx
  · subst other
    simp [phaseOf, about]
  · simp [phaseOf, about, Function.update_of_ne same, Ne.symm same]

/-- An event about no slot changes no phase. -/
theorem phaseOf_cons_apart {event : Event T K V} {earlier : List (Event T K V)}
    (apart : event.slot = none)
    : phaseOf (event :: earlier) = phaseOf earlier := by
  funext other
  simp [phaseOf, apart]

end

end AtomicSlotMap
