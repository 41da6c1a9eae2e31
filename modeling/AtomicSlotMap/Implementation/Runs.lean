import AtomicSlotMap.Implementation.Moves
import AtomicSlotMap.Library.Simulation

/-! Runs of the program: all interleavings of the activities, from the empty map. -/

namespace AtomicSlotMap

variable {T K V E : Type} [Key K]

/-- The check that an activity is at rest. -/
def Pc.idle? : Pc K V E → Bool
  | .idle => true
  | _ => false

omit [Key K] in
theorem Pc.eq_idle {pc : Pc K V E} (checked : pc.idle? = true) : pc = .idle := by
  cases pc <;> first | rfl | cases checked

/-- A step stays within the words of the map: the tag of the free list has not gone round
since a pop that succeeds loaded it, the vector has room for one more index, and no clone
starts above the reference count limit.
-/
structure Sys.Within (s : Sys T K V E) (t : T) : Prop where
  tag
    : ∀ old next seen, s.pc t = .popCas old next seen → s.freeHead = old →
        s.updates - seen < 2 ^ 32
  room : s.pc t = .pushZeroed → s.len + 1 < 2 ^ 32
  clone
    : ∀ guard, s.pc t = .cloneInc guard →
        (s.slots (KeyData.idx guard.key)).refCount ≤ MAX_REFCOUNT

namespace Sys

/-- The check of the limits. -/
def within? (s : Sys T K V E) (t : T) : Bool :=
  match s.pc t with
  | .popCas old _ seen => s.freeHead != old || s.updates - seen < 2 ^ 32
  | .pushZeroed => s.len + 1 < 2 ^ 32
  | .cloneInc guard => (s.slots (KeyData.idx guard.key)).refCount ≤ MAX_REFCOUNT
  | _ => true

/-- The check decides the limits, by cases on the program counter. -/
theorem within_of_within? {s : Sys T K V E} {t : T} (checked : s.within? t = true)
    : s.Within t := by
  rw [within?] at checked
  refine ⟨?_, ?_, ?_⟩
  · intro old next seen about same
    simpa [about, same] using checked
  · intro about
    simpa [about] using checked
  · intro guard about
    simpa [about] using checked

variable [DecidableEq T] [Fintype T] {dbg : Bool} {s s' s'' : Sys T K V E}

/-- A step of the program, whatever its limits. -/
def Step (dbg : Bool) (s s' : Sys T K V E) : Prop :=
  ∃ t choice, step dbg s t choice = some s'

/-- A step of the program within the limits of the words. -/
def Next (dbg : Bool) (s s' : Sys T K V E) : Prop :=
  ∃ t choice, s.Within t ∧ step dbg s t choice = some s'

/-- The states of the program reachable from the empty map within the limits. -/
def Reachable (dbg : Bool) (s : Sys T K V E) : Prop :=
  Relation.ReflTransGen (Next dbg) (.withKey T K V E) s

/-- No call has unwound while it held a slot. -/
def NothingLost (s : Sys T K V E) : Prop := ∀ actor idx, .leaked actor idx ∉ s.trace

/-- A run that a schedule prescribes; `none` if a step is impossible or not allowed. -/
def runIf (allowed : Sys T K V E → T → Bool) (dbg : Bool) (s : Sys T K V E)
    : List (T × Choice K V E) → Option (Sys T K V E)
  | [] => some s
  | (t, choice) :: schedule =>
      if allowed s t then
        (step dbg s t choice).bind fun s' => runIf allowed dbg s' schedule
      else none

/-- A run that a schedule prescribes, within the limits. -/
def run (dbg : Bool) (s : Sys T K V E) (schedule : List (T × Choice K V E))
    : Option (Sys T K V E) :=
  runIf within? dbg s schedule

/-- The part of a schedule in which one activity makes its steps. -/
def turns (t : T) (choices : List (Choice K V E)) : List (T × Choice K V E) :=
  choices.map (t, ·)

/-- What a schedule runs to is reached by allowed steps, by induction on the schedule. -/
theorem steps_of_runIf {allowed : Sys T K V E → T → Bool}
    {schedule : List (T × Choice K V E)} (found : runIf allowed dbg s schedule = some s')
    : Relation.ReflTransGen
        (fun before after =>
          ∃ t choice, allowed before t = true ∧ step dbg before t choice = some after)
        s s' := by
  induction schedule generalizing s with
  | nil =>
      cases found
      exact .refl
  | cons head schedule ih =>
      obtain ⟨t, choice⟩ := head
      simp only [runIf, Option.ite_none_right_eq_some] at found
      obtain ⟨checked, found⟩ := found
      obtain ⟨middle, first, rest⟩ := Option.bind_eq_some_iff.mp found
      exact .head ⟨t, choice, checked, first⟩ (ih rest)

theorem next_of_run {schedule : List (T × Choice K V E)} (found : run dbg s schedule = some s')
    : Relation.ReflTransGen (Next dbg) s s' :=
  Relation.ReflTransGen.mono
    (fun _ _ ⟨t, choice, checked, step⟩ => ⟨t, choice, within_of_within? checked, step⟩) _ _
    (steps_of_runIf found)

/-- A schedule from the empty map runs to a reachable state. -/
theorem Reachable.of_run {schedule : List (T × Choice K V E)}
    (found : run dbg (.withKey T K V E) schedule = some s)
    : Reachable dbg s :=
  next_of_run found

end Sys

end AtomicSlotMap
