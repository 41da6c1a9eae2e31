import AtomicSlotMap.Implementation.Runs
import AtomicSlotMap.Library.Eventually

/-! Calls that run alone: one activity takes the steps of its call while all others stand still.
-/

namespace AtomicSlotMap

variable {T K V E : Type} [Key K]

/-- Whether a choice is not a failure of the allocator. -/
def Choice.supplies : Choice K V E → Bool
  | .allocNull | .layoutOverflow => false
  | _ => true

/-- Whether the allocator returns null. -/
def Choice.isAllocNull : Choice K V E → Bool
  | .allocNull => true
  | _ => false

/-- Whether the computation of a layout overflows, which panics. -/
def Choice.isLayoutOverflow : Choice K V E → Bool
  | .layoutOverflow => true
  | _ => false

omit [Key K] in
theorem Choice.go_of_onGo {α : Type} {choice : Choice K V E} {next final : α}
    (found : choice.onGo next = some final)
    : choice = .go := by
  cases choice <;> first | rfl | cases found

/-- Whether an activity is between calls, has come to the end of its call or runs a closure. -/
def Pc.paused : Pc K V E → Bool
  | .idle | .iterating _ | .ret _ | .unwinding | .closure _ _ => true
  | _ => false

/-- The index and version that a closure is called with. -/
def Pc.offered? : Pc K V E → Option (Nat × Nat)
  | .closure idx version => some (idx, version)
  | _ => none

omit [Key K] in
theorem Pc.eq_closure {pc : Pc K V E} {idx version : Nat}
    (offered : pc.offered? = some (idx, version))
    : pc = .closure idx version := by
  cases pc <;> cases offered
  rfl

/-- Program counters from which there is one way on, unless the allocator fails. -/
def Pc.determined : Pc K V E → Bool
  | .idle | .iterating _ | .ret _ | .unwinding | .popCas _ _ _ | .closure _ _ | .pushCas _ _ _
  | .dropValue _ _ | .acquireCas _ _ _ => false
  | _ => true

namespace Sys

/-- Everything but the slots is as before, and these are the slots now. -/
structure Keeps (s : Sys T K V E) (slots : Nat → Slot V) (s' : Sys T K V E) : Prop where
  slots : s'.slots = slots
  chunks : s'.chunks = s.chunks
  len : s'.len = s.len
  freeHead : s'.freeHead = s.freeHead
  numElems : s'.numElems = s.numElems
  guards : s'.guards = s.guards
  dropped : ∀ actor idx data, .dropped actor idx data ∈ s'.trace ↔ .dropped actor idx data ∈ s.trace

/-- The map is as before. -/
def Undisturbed (s s' : Sys T K V E) : Prop := s.Keeps s.slots s'

section

variable {s₀ s : Sys T K V E} {slots : Nat → Slot V} {t : T}

omit [Key K] in
theorem Undisturbed.refl (s : Sys T K V E) : s.Undisturbed s :=
  ⟨Eq.refl _, Eq.refl _, Eq.refl _, Eq.refl _, Eq.refl _, Eq.refl _, fun _ _ _ => Iff.rfl⟩

omit [Key K] in
theorem Keeps.answer (keeps : s₀.Keeps slots s) (res : Res K V E)
    : s₀.Keeps slots (s.answer t res) := by
  rw [answer_eq]
  exact ⟨keeps.slots, keeps.chunks, keeps.len, keeps.freeHead, keeps.numElems, keeps.guards,
    keeps.dropped⟩

variable [DecidableEq T]

omit [Key K] in
theorem Keeps.goto (keeps : s₀.Keeps slots s) (pc : Pc K V E) : s₀.Keeps slots (s.goto t pc) :=
  ⟨keeps.slots, keeps.chunks, keeps.len, keeps.freeHead, keeps.numElems, keeps.guards,
    keeps.dropped⟩

omit [Key K] in
theorem Keeps.begin (keeps : s₀.Keeps slots s) (op : Op K) : s₀.Keeps slots (s.begin t op) :=
  ⟨keeps.slots, keeps.chunks, keeps.len, keeps.freeHead, keeps.numElems, keeps.guards,
    keeps.dropped⟩

end

/-- Installing a chunk leaves the others as they are. -/
theorem isSome_installed {chunk buffer other : Nat} {chunks : Nat → Option Nat}
    : (Function.update chunks chunk (some buffer) other).isSome
      ↔ other = chunk ∨ (chunks other).isSome := by
  by_cases same : other = chunk
  · simp [same]
  · simp [same]

variable [DecidableEq T] [Fintype T] {dbg : Bool} {s s' : Sys T K V E} {t : T}
  {Goal : Sys T K V E → Prop}

/-- A step in which no allocation fails. -/
def SuppliedStep (dbg : Bool) (s s' : Sys T K V E) : Prop :=
  ∃ t choice, choice.supplies = true ∧ step dbg s t choice = some s'

/-- A schedule without failed allocations, by induction on the schedule. -/
theorem suppliedSteps_of_runIf {allowed : Sys T K V E → T → Bool}
    {schedule : List (T × Choice K V E)} (found : runIf allowed dbg s schedule = some s')
    (supplies : schedule.all (·.2.supplies) = true)
    : Relation.ReflTransGen
        (fun before after =>
          ∃ t choice,
            allowed before t = true
            ∧ choice.supplies = true
            ∧ step dbg before t choice = some after)
        s s' := by
  induction schedule generalizing s with
  | nil =>
      cases found
      exact .refl
  | cons head schedule ih =>
      obtain ⟨t, choice⟩ := head
      simp only [runIf, Option.ite_none_right_eq_some] at found
      obtain ⟨checked, found⟩ := found
      obtain ⟨middle, first, rest⟩ := Option.bind_eq_some_iff.mp found
      rw [List.all_cons, Bool.and_eq_true] at supplies
      exact .head ⟨t, choice, checked, supplies.1, first⟩ (ih rest supplies.2)

theorem supplied_of_runIf {allowed : Sys T K V E → T → Bool}
    {schedule : List (T × Choice K V E)} (found : runIf allowed dbg s schedule = some s')
    (supplies : schedule.all (·.2.supplies) = true)
    : Relation.ReflTransGen (SuppliedStep dbg) s s' :=
  Relation.ReflTransGen.mono
    (fun _ _ ⟨t, choice, _, supplied, step⟩ => ⟨t, choice, supplied, step⟩) _ _
    (suppliedSteps_of_runIf found supplies)

/-- A step of an activity within its call in which no allocation fails. -/
def Turn (dbg : Bool) (t : T) (s s' : Sys T K V E) : Prop :=
  (s.pc t).paused = false ∧ ∃ choice, choice.supplies = true ∧ step dbg s t choice = some s'

/-- A step of an activity within its call in which nothing is left to choose, and no weak exchange
fails spuriously.
-/
def GoTurn (dbg : Bool) (t : T) (s s' : Sys T K V E) : Prop :=
  (s.pc t).paused = false ∧ step dbg s t .go = some s'

/-- From a pause, which it leaves by this choice, an activity runs alone to its next pause: the
end of its call or its closure.
-/
def Ends (dbg : Bool) (t : T) (choice : Choice K V E) (s s' : Sys T K V E) : Prop :=
  ∃ going,
    step dbg s t choice = some going
    ∧ Relation.ReflTransGen (Turn dbg t) going s'
    ∧ (s'.pc t).paused = true

/-- An activity within a call can go on, by cases on the program counter. -/
theorem exists_go (dbg : Bool) (running : (s.pc t).paused = false)
    : ∃ s', step dbg s t .go = some s' := by
  cases about : s.pc t with
  | idle | iterating | closure | ret | unwinding =>
      rw [about] at running
      cases running
  | _ =>
      simp only [step, about]
      exact ⟨_, rfl⟩

/-- A wait for a chunk ends if the chunk is there. -/
theorem step_wait {idx : Nat} {next : Pc K V E} {choice : Choice K V E}
    (about : s.pc t = .waitForChunk idx next) (found : step dbg s t choice = some s')
    : ((s.chunks (chunkOf idx)).isSome ∧ s' = s.goto t next)
      ∨ (¬ (s.chunks (chunkOf idx)).isSome ∧ s' = s) := by
  simp only [step, about] at found
  have reached := Choice.eq_of_onGo found
  split at reached
  · next present => exact Or.inl ⟨present, reached⟩
  · next absent => exact Or.inr ⟨absent, reached⟩

theorem step_assertRefCount {idx : Nat} {next : Pc K V E} {choice : Choice K V E}
    (about : s.pc t = .assertRefCount idx next) (zero : (s.slots idx).refCount = 0)
    (found : step dbg s t choice = some s')
    : s' = s.goto t next := by
  simp only [step, about, if_pos zero] at found
  exact Choice.eq_of_onGo found

theorem step_assertVersion {idx : Nat} {next : Pc K V E} {choice : Choice K V E}
    (about : s.pc t = .assertVersion idx next) (even : (s.slots idx).version % 2 = 0)
    (found : step dbg s t choice = some s')
    : s' = s.goto t next := by
  simp only [step, about, if_pos even] at found
  exact Choice.eq_of_onGo found

/-- There is one way on, by cases on the program counter. -/
theorem go_of_determined {choice : Choice K V E} (determined : (s.pc t).determined = true)
    (supplies : choice.supplies = true) (found : step dbg s t choice = some s')
    : choice = .go := by
  cases about : s.pc t with
  | idle | iterating | ret | unwinding | popCas | closure | pushCas | dropValue | acquireCas =>
      rw [about] at determined
      cases determined
  | ensureAlloc chunk after =>
      simp only [step, about] at found
      cases choice with
      | go => rfl
      | allocNull | layoutOverflow => cases supplies
      | _ => cases found
  | _ =>
      simp only [step, about] at found
      exact Choice.go_of_onGo found

/-- Where there is one way on, the call takes it. -/
theorem eventually_of_go {after : Sys T K V E} (determined : (s.pc t).determined = true)
    (found : step dbg s t .go = some after)
    (later : Library.Eventually (Turn dbg t) Goal after)
    : Library.Eventually (Turn dbg t) Goal s := by
  have running : (s.pc t).paused = false := by
    cases about : s.pc t with
    | idle | iterating | closure | ret | unwinding =>
        rw [about] at determined
        cases determined
    | _ => rfl
  refine .next ⟨running, .go, rfl, found⟩ fun s' turn => ?_
  obtain ⟨_, choice, supplies, step⟩ := turn
  cases go_of_determined determined supplies step
  cases found.symm.trans step
  exact later

/-- An activity that pauses takes no turn. -/
theorem not_turn_of_paused (paused : (s.pc t).paused = true) : ¬ Turn dbg t s s' := by
  rintro ⟨running, _⟩
  rw [paused] at running
  cases running

theorem GoTurn.turn (turn : GoTurn dbg t s s') : Turn dbg t s s' :=
  ⟨turn.1, .go, rfl, turn.2⟩

/-- Turns are steps. -/
theorem steps_of_turns (turns : Relation.ReflTransGen (Turn dbg t) s s')
    : Relation.ReflTransGen (Step dbg) s s' :=
  Relation.ReflTransGen.mono (fun _ _ ⟨_, choice, _, found⟩ => ⟨t, choice, found⟩) _ _ turns

/-- A schedule of one activity within its call, by induction on its choices. -/
theorem turns_of_runIf {allowed : Sys T K V E → T → Bool} {choices : List (Choice K V E)}
    (found : runIf allowed dbg s (turns t choices) = some s')
    (running : ∀ before, allowed before t = true → (before.pc t).paused = false)
    (supplies : choices.all Choice.supplies = true)
    : Relation.ReflTransGen (Turn dbg t) s s' := by
  induction choices generalizing s with
  | nil =>
      cases found
      exact .refl
  | cons choice choices ih =>
      simp only [turns, List.map_cons, runIf, Option.ite_none_right_eq_some] at found
      obtain ⟨checked, found⟩ := found
      obtain ⟨middle, first, rest⟩ := Option.bind_eq_some_iff.mp found
      rw [List.all_cons, Bool.and_eq_true] at supplies
      exact .head ⟨running s checked, choice, supplies.1, first⟩ (ih rest supplies.2)

/-- What all turns come to is reached without spurious failures, by induction on the turns. -/
theorem eventually_go (eventually : Library.Eventually (Turn dbg t) Goal s)
    : Library.Eventually (GoTurn dbg t) Goal s := by
  induction eventually with
  | now reached => exact .now reached
  | next first _ ih =>
      obtain ⟨next, found⟩ := exists_go dbg first.1
      exact .next ⟨first.1, found⟩ fun s' turn => ih s' turn.turn

/-- Without its chunk a call waits forever, by induction on its turns. -/
theorem eq_of_waits {idx : Nat} {next : Pc K V E} (about : s.pc t = .waitForChunk idx next)
    (absent : ¬ (s.chunks (chunkOf idx)).isSome)
    (run : Relation.ReflTransGen (Turn dbg t) s s')
    : s' = s := by
  induction run with
  | refl => rfl
  | tail _ last ih =>
      subst ih
      obtain ⟨_, choice, _, found⟩ := last
      rcases step_wait about found with ⟨present, _⟩ | ⟨_, same⟩
      · exact absurd present absent
      · exact same

/-- What all turns of a call come to is where it ends, if they come to a pause. -/
theorem Ends.reached {choice : Choice K V E} {going : Sys T K V E} (ends : Ends dbg t choice s s')
    (found : step dbg s t choice = some going)
    (eventually : Library.Eventually (Turn dbg t) Goal going)
    (pauses : ∀ after, Goal after → (after.pc t).paused = true)
    : Goal s' := by
  obtain ⟨going', found', turns, paused⟩ := ends
  cases found.symm.trans found'
  exact eventually.of_final turns
    (fun after _ reached => not_turn_of_paused (pauses after reached))
    (fun _ => not_turn_of_paused paused)

-----------------------------------------------------------------------------------------
-- Outlines of calls
-----------------------------------------------------------------------------------------

/-- The stages of a call that runs alone. Every turn leads to a stage again, and to one of a lower
rank unless an exchange fails spuriously or a chunk is missing.
-/
structure Outline (dbg : Bool) (t : T) (housed : Prop) (Stage : Nat → Sys T K V E → Prop)
    : Prop where
  running : ∀ rank s, Stage (rank + 1) s → (s.pc t).paused = false
  turn
    : ∀ rank s s' choice, Stage rank s → (s.pc t).paused = false → choice.supplies = true →
        step dbg s t choice = some s' →
        ∃ rank', Stage rank' s' ∧ (choice = .go → housed → rank' < rank)

variable {housed : Prop} {Stage : Nat → Sys T K V E → Prop} {rank : Nat}

/-- However a call goes, it keeps to its outline, by induction on its turns. -/
theorem Outline.kept (outline : Outline dbg t housed Stage) (stage : Stage rank s)
    (run : Relation.ReflTransGen (Turn dbg t) s s')
    : ∃ rank', Stage rank' s' := by
  induction run with
  | refl => exact ⟨rank, stage⟩
  | tail _ last ih =>
      obtain ⟨_, stage'⟩ := ih
      obtain ⟨running, choice, supplies, found⟩ := last
      obtain ⟨rank', stage'', _⟩ := outline.turn _ _ _ choice stage' running supplies found
      exact ⟨rank', stage''⟩

/-- A call that pauses has come to the end of its outline. -/
theorem Outline.final (outline : Outline dbg t housed Stage) (stage : Stage rank s)
    (run : Relation.ReflTransGen (Turn dbg t) s s') (paused : (s'.pc t).paused = true)
    : Stage 0 s' := by
  obtain ⟨rank', stage'⟩ := outline.kept stage run
  cases rank' with
  | zero => exact stage'
  | succ rank' =>
      have running := outline.running rank' s' stage'
      rw [paused] at running
      cases running

/-- A call that meets no spurious failure comes to the end of its outline. -/
theorem Outline.eventually (outline : Outline dbg t housed Stage) (present : housed)
    (stage : Stage rank s)
    : Library.Eventually (GoTurn dbg t) (Stage 0) s := by
  refine Library.Eventually.of_rank (fun _ => id) (fun rank s stage => ?_) stage
  have running := outline.running rank s stage
  obtain ⟨next, found⟩ := exists_go dbg running
  refine ⟨⟨next, running, found⟩, fun s' turn => ?_⟩
  obtain ⟨rank', stage', lower⟩ := outline.turn _ _ _ .go stage running rfl turn.2
  exact ⟨rank', Nat.le_of_lt_succ (lower rfl present), stage'⟩

end Sys

end AtomicSlotMap
