import AtomicSlotMap.History.Rest

/-! Runs of a single thread. Its activities are the call it executes and those that are suspended
while user code of theirs, a closure or a destructor, calls the map again.
-/

namespace AtomicSlotMap

variable {T K V E : Type} [Key K]

/-- Whether an activity is at rest or runs user code. -/
def Pc.suspended : Pc K V E → Bool
  | .idle | .iterating _ | .closure _ _ | .dropValue _ _ => true
  | _ => false

namespace Sys

variable [DecidableEq T] [Fintype T] {dbg : Bool} {s s' : Sys T K V E} {t : T}

/-- All activities other than this one are suspended. -/
def Alone (s : Sys T K V E) (t : T) : Prop := ∀ other ≠ t, (s.pc other).suspended = true

instance (s : Sys T K V E) (t : T) : Decidable (s.Alone t) :=
  inferInstanceAs (Decidable (∀ other ≠ t, (s.pc other).suspended = true))

/-- A step of a single thread, within the limits of the words and no panic. -/
def SoloNext (dbg : Bool) (s s' : Sys T K V E) : Prop :=
  ∃ t choice,
    s.Within t ∧ s.Alone t ∧ step dbg s t choice = some s' ∧ s'.pc t ≠ .unwinding

/-- The states that a single thread reaches from the empty map without panics. -/
def Solo (dbg : Bool) (s : Sys T K V E) : Prop :=
  Relation.ReflTransGen (SoloNext dbg) (.withKey T K V E) s

theorem SoloNext.calm (next : SoloNext dbg s s') : CalmNext dbg s s' := by
  obtain ⟨t, choice, within, _, found, awake⟩ := next
  exact ⟨t, choice, within, found, awake⟩

theorem Solo.calm (solo : Solo dbg s) : Calm dbg s :=
  Relation.ReflTransGen.mono (fun _ _ => SoloNext.calm) _ _ solo

theorem Solo.steps (solo : Solo dbg s)
    : Relation.ReflTransGen (Step dbg) (.withKey T K V E) s :=
  Relation.ReflTransGen.mono (fun _ _ ⟨t, choice, _, _, found, _⟩ => ⟨t, choice, found⟩) _ _ solo

/-- A schedule of a single thread that never meets an unwinding activity. -/
theorem Solo.of_run {schedule : List (T × Choice K V E)}
    (found
      : runIf (fun s t => s.within? t && decide (s.Alone t) && s.calm?) dbg
          (.withKey T K V E) schedule
        = some s)
    (calm : s.calm? = true)
    : Solo dbg s := by
  refine Relation.ReflTransGen.mono ?_ _ _ (awake_of_runIf found calm).2
  rintro before after ⟨t, choice, checked, step, awake⟩
  rw [Bool.and_eq_true] at checked
  exact ⟨t, choice, within_of_within? checked.1, of_decide_eq_true checked.2, step, awake⟩

end Sys

end AtomicSlotMap
