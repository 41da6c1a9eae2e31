import AtomicSlotMap.Correctness.DropOnce
import AtomicSlotMap.History.Records
import AtomicSlotMap.Implementation.Turns

/-! Which threads drop values. A value that may not be sent to another thread is still dropped
wherever its last reference is given up, if the map may be shared.
-/

namespace AtomicSlotMap

variable {T K V E Θ : Type} [Key K]

/-- Which of the marker traits `Send` and `Sync` a type has. -/
structure Markers where
  send : Bool
  sync : Bool

/-- The bounds written for `Slot`: it is `Send` if its value is, and `Sync` if its value is. -/
def Slot.markers (value : Markers) : Markers := ⟨value.send, value.sync⟩

/-- Who may act on the map: the thread that made it, and if the map is `Sync`, which it is
exactly if its slots are, every thread.
-/
def MayAct (value : Markers) (main actor : Θ) : Prop :=
  (Slot.markers value).sync = true ∨ actor = main

/-- Every last reference was given up by the thread that had inserted the value. -/
def ReleasedAtHome [DecidableEq T] (thread : T → Θ) : List (Event T K V) → Prop
  | [] => True
  | .released actor idx :: earlier =>
      (∀ key stored remover, phaseOf earlier idx = .retired key stored remover →
        ∀ writer place, .wrote writer place stored ∈ earlier → thread writer = thread actor)
      ∧ ReleasedAtHome thread earlier
  | _ :: earlier => ReleasedAtHome thread earlier

section

variable [DecidableEq T] {thread : T → Θ} {events earlier trace : List (Event T K V)}
  {actor writer : T} {idx place : Nat} {key : K} {stored : Stored V}

/-- Other events release nothing, by induction on them. -/
theorem ReleasedAtHome.append (home : ReleasedAtHome thread earlier)
    (others : ∀ actor idx, .released actor idx ∉ events)
    : ReleasedAtHome thread (events ++ earlier) := by
  induction events with
  | nil => exact home
  | cons event rest ih =>
      have rested := ih fun actor idx member => others actor idx (List.mem_cons_of_mem _ member)
      cases event with
      | released actor idx => exact absurd List.mem_cons_self (others actor idx)
      | _ => exact rested

theorem ReleasedAtHome.tail {event : Event T K V} (home : ReleasedAtHome thread (event :: earlier))
    : ReleasedAtHome thread earlier := by
  cases event with
  | released actor idx => exact home.2
  | _ => exact home

/-- Whoever is to drop a value is of the thread that wrote it, by induction on the trace. -/
theorem ReleasedAtHome.dropping (home : ReleasedAtHome thread trace) (lawful : Lawful trace)
    (phase : phaseOf trace idx = .dropping actor key stored)
    (wrote : .wrote writer place stored ∈ trace)
    : thread writer = thread actor := by
  induction trace with
  | nil => cases phase
  | cons event earlier ih =>
      by_cases about : event.slot = some idx
      · have allowed := lawful.1 idx about
        rw [phaseOf_cons about, Function.update_self] at phase
        cases event with
        | released releaser _ =>
            obtain rfl := Option.some.inj about
            obtain ⟨_, _, remover, retired, _⟩ := allowed
            rw [retired] at phase
            cases phase
            have before := (List.mem_cons.mp wrote).resolve_left nofun
            exact home.1 key stored remover retired writer place before
        | armed _ _ =>
            obtain ⟨_, filled⟩ := allowed
            rw [filled] at phase
            cases phase
        | retired _ _ =>
            obtain ⟨_, _, live, _⟩ := allowed
            rw [live] at phase
            cases phase
        | gaveUp _ _ =>
            cases before : phaseOf earlier idx with
            | armed | live | retired =>
                rw [before] at phase
                cases phase
            | _ =>
                rw [before] at allowed
                cases allowed
        | counted | discounted | allocated | installed | deallocated => cases about
        | _ => cases phase
      · have kept : phaseOf (event :: earlier) idx = phaseOf earlier idx := by
          simp [phaseOf, about]
        rw [kept] at phase
        rcases List.mem_cons.mp wrote with rfl | before
        · have serial := (lawful.1 place rfl).2
          have fresh := lawful.2.accounted.fresh idx stored (by rw [phase]; rfl)
          omega
        · exact ih home.tail lawful.2 phase before

/-- Values are dropped by the thread that inserted them, by induction on the trace. -/
theorem ReleasedAtHome.dropped (home : ReleasedAtHome thread trace) (lawful : Lawful trace)
    (wrote : .wrote writer place stored ∈ trace)
    (dropped : .dropped actor idx (some stored) ∈ trace)
    : thread actor = thread writer := by
  induction trace with
  | nil => cases dropped
  | cons event earlier ih =>
      rcases List.mem_cons.mp dropped with rfl | earlierDrop
      · obtain ⟨key, value, phase, same⟩ := lawful.1 idx rfl
        cases same
        have before := (List.mem_cons.mp wrote).resolve_left nofun
        exact (home.tail.dropping lawful.2 phase before).symm
      · rcases List.mem_cons.mp wrote with rfl | before
        · have serial := (lawful.1 place rfl).2
          have none_yet := lawful.2.accounted.future stored.serial (by omega)
          have once : 0 < drops stored.serial earlier :=
            List.countP_pos_iff.mpr ⟨_, earlierDrop, by simp [Event.drops]⟩
          omega
        · exact ih home.tail lawful.2 before earlierDrop

end

namespace Sys

variable [DecidableEq T] [Fintype T] {dbg : Bool} {s s' : Sys T K V E} {t : T} {thread : T → Θ}

/-- If the activity is about to give up the last reference to a value, its thread is the one
that inserted the value.
-/
def TakesOwn (s : Sys T K V E) (thread : T → Θ) (t : T) : Prop :=
  ∀ idx needsDrop otherwise, (s.pc t).Decrements idx needsDrop otherwise →
    (s.slots idx).refCount = 1 →
    ∀ stored, (s.slots idx).data = some stored →
    ∀ writer place, .wrote writer place stored ∈ s.trace → thread writer = thread t

/-- A step of a thread that may act on the map. -/
def SharedNext (dbg : Bool) (value : Markers) (main : Θ) (thread : T → Θ) (s s' : Sys T K V E)
    : Prop :=
  ∃ t choice, MayAct value main (thread t) ∧ s.Within t ∧ step dbg s t choice = some s'

/-- Such a step that gives up last references only in the thread that inserted the value. -/
def HomeNext (dbg : Bool) (value : Markers) (main : Θ) (thread : T → Θ) (s s' : Sys T K V E)
    : Prop :=
  ∃ t choice,
    MayAct value main (thread t)
    ∧ s.Within t
    ∧ s.TakesOwn thread t
    ∧ step dbg s t choice = some s'

/-- Every value that was dropped was dropped by the thread that inserted it. -/
def DroppedAtHome (s : Sys T K V E) (thread : T → Θ) : Prop :=
  ∀ writer place stored dropper idx,
    .wrote writer place stored ∈ s.trace → .dropped dropper idx (some stored) ∈ s.trace →
    thread dropper = thread writer

/-- A step from a decrement is the decrement, by cases on where it stands. -/
theorem step_of_decrements {idx : Nat} {needsDrop otherwise : Pc K V E} {choice : Choice K V E}
    (decrements : (s.pc t).Decrements idx needsDrop otherwise)
    (found : step dbg s t choice = some s')
    : choice = .go ∧ s' = s.decRefCount t idx needsDrop otherwise := by
  generalize about : s.pc t = pc at decrements
  cases decrements with
  | remove | acquire | unguard =>
      simp only [step, about] at found
      cases Choice.go_of_onGo found
      exact ⟨rfl, Choice.eq_of_onGo found⟩

/-- A step that takes only its own keeps the releases at home. -/
theorem releasedAtHome_of_step {choice : Choice K V E} {free : List Nat} (inv : s.Inv free)
    (home : ReleasedAtHome thread s.trace) (own : s.TakesOwn thread t)
    (found : step dbg s t choice = some s')
    : ReleasedAtHome thread s'.trace := by
  obtain ⟨events, trace, caused⟩ := (step_moves found).causes
  by_cases others : ∀ actor idx, .released actor idx ∉ events
  · rw [trace]
    exact home.append others
  · simp only [not_forall, not_not] at others
    obtain ⟨actor, idx, member⟩ := others
    obtain ⟨rfl, last, needsDrop, otherwise, decrements⟩ := caused _ member
    obtain ⟨_, rfl⟩ := step_of_decrements decrements found
    rw [decRefCount, if_pos last]
    refine ⟨fun key stored remover phase => ?_, home⟩
    have fits := inv.owned.slots idx
    rw [show (s.view free).phase idx = _ from phase] at fits
    exact own idx needsDrop otherwise decrements last stored fits.2.2.2.2

/-- In such runs values are dropped at home, by induction on the run. -/
theorem releasedAtHome_of_run {value : Markers} {main : Θ}
    (run : Relation.ReflTransGen (HomeNext dbg value main thread) (.withKey T K V E) s)
    : Reachable dbg s ∧ ReleasedAtHome thread s.trace := by
  induction run with
  | refl => exact ⟨.refl, trivial⟩
  | tail _ last ih =>
      obtain ⟨t, choice, _, within, own, found⟩ := last
      obtain ⟨free, inv⟩ := Reachable.inv ih.1
      exact ⟨ih.1.tail ⟨t, choice, within, found⟩, releasedAtHome_of_step inv ih.2 own found⟩

-----------------------------------------------------------------------------------------
-- Drops away from home
-----------------------------------------------------------------------------------------

variable {value : Markers} {main : Θ} {idx : Nat} {stored : Stored V}

/-- Whoever stands at the drop of a value drops it. -/
theorem exists_dropped (dbg : Bool) {after : AfterPush K E} (may : MayAct value main (thread t))
    (about : s.pc t = .dropValue idx after) (data : (s.slots idx).data = some stored)
    : ∃ s', SharedNext dbg value main thread s s'
        ∧ s'.trace = .dropped t idx (some stored) :: s.trace := by
  refine ⟨(s.dropInnerValue t idx).goto t (.pushFreeIndex dbg idx after),
    ⟨t, .go, may, within_of_within? ?_, ?_⟩, ?_⟩
  · simp only [within?, about]
  · simp only [step, about]
  · rw [← data]
    rfl

/-- A decrement is a step within the limits, by cases on where it stands. -/
theorem sharedNext_of_decrements (dbg : Bool) {needsDrop otherwise : Pc K V E}
    (may : MayAct value main (thread t))
    (decrements : (s.pc t).Decrements idx needsDrop otherwise)
    : SharedNext dbg value main thread s (s.decRefCount t idx needsDrop otherwise) := by
  generalize about : s.pc t = pc at decrements
  cases decrements with
  | remove | acquire | unguard =>
      refine ⟨t, .go, may, within_of_within? ?_, ?_⟩
      · simp only [within?, about]
      · simp only [step, about]
        rfl

omit [Key K] [Fintype T] in
/-- The decrement of the last reference. -/
theorem exists_decRefCount_last (needsDrop otherwise : Pc K V E)
    (last : (s.slots idx).refCount = 1)
    : ∃ count, s.decRefCount t idx needsDrop otherwise
        = ((s.setSlot idx { s.slots idx with refCount := count }).emit (.released t idx)).goto t
            needsDrop :=
  ⟨_, if_pos last⟩

/-- Whoever gives up the last reference to a value goes on to drop it, by cases on where it
stands.
-/
theorem exists_dropped_of_last (dbg : Bool) {needsDrop otherwise : Pc K V E} (placed : s.Placed)
    (may : MayAct value main (thread t))
    (decrements : (s.pc t).Decrements idx needsDrop otherwise)
    (last : (s.slots idx).refCount = 1) (data : (s.slots idx).data = some stored)
    : ∃ s', Relation.ReflTransGen (SharedNext dbg value main thread) s s'
        ∧ s.trace <:+ s'.trace
        ∧ .dropped t idx (some stored) ∈ s'.trace := by
  have first := sharedNext_of_decrements dbg may decrements
  obtain ⟨count, reached⟩ := exists_decRefCount_last (t := t) needsDrop otherwise last
  rw [reached] at first
  generalize about : ((s.setSlot idx { s.slots idx with refCount := count }).emit
    (.released t idx)).goto t needsDrop = released at first
  have next : released.pc t = needsDrop := by
    rw [← about]
    exact pc_goto_self _ t _
  have kept : (released.slots idx).data = some stored := by
    have here : released.slots idx = { s.slots idx with refCount := count } := by
      rw [← about]
      exact Function.update_self ..
    rw [here]
    exact data
  have trace : s.trace <:+ released.trace := by
    rw [← about]
    exact List.suffix_cons _ _
  have present : (released.chunks (chunkOf idx)).isSome := by
    rw [← about]
    exact placed.values idx (by rw [data]; nofun)
  have finishing (staged : Sys T K V E) (after : AfterPush K E)
      (run : Relation.ReflTransGen (SharedNext dbg value main thread) s staged)
      (drop : staged.pc t = .dropValue idx after) (slots : staged.slots = released.slots)
      (same : staged.trace = released.trace) :
      ∃ s', Relation.ReflTransGen (SharedNext dbg value main thread) s s'
        ∧ s.trace <:+ s'.trace
        ∧ .dropped t idx (some stored) ∈ s'.trace := by
    obtain ⟨s', dropping, final⟩ :=
      exists_dropped dbg may drop (by rw [slots]; exact kept)
    rw [same] at final
    refine ⟨s', run.tail dropping, ?_, ?_⟩
    · rw [final]
      exact trace.trans (List.suffix_cons _ _)
    · rw [final]
      exact List.mem_cons_self
  clear about
  generalize s.pc t = pc at decrements
  cases decrements with
  | remove key => exact finishing released _ (.single first) next rfl rfl
  | acquire key getter => exact finishing released _ (.single first) next rfl rfl
  | unguard guard =>
      let arrived : Sys T K V E :=
        released.goto t (.dropValue (KeyData.idx guard.key) .unguarded)
      have second : SharedNext dbg value main thread released arrived := by
        refine ⟨t, .go, may, within_of_within? ?_, ?_⟩
        · simp only [within?, next]
        · simp only [step, next, if_pos present]
          rfl
      exact finishing arrived _ (.tail (.single first) second) (pc_goto_self _ t _) rfl rfl

/-- A run in which somebody is about to give up the last reference to the value of another
thread goes on to a drop away from home.
-/
theorem exists_not_droppedAtHome (reachable : Reachable dbg s)
    (may : MayAct value main (thread t)) (foreign : ¬ s.TakesOwn thread t)
    : ∃ s', Relation.ReflTransGen (SharedNext dbg value main thread) s s'
        ∧ ¬ s'.DroppedAtHome thread := by
  simp only [TakesOwn, not_forall] at foreign
  obtain ⟨idx, needsDrop, otherwise, decrements, last, stored, data, writer, place, wrote, apart⟩ :=
    foreign
  obtain ⟨s', run, more, dropped⟩ :=
    exists_dropped_of_last dbg reachable.placed may decrements last data
  refine ⟨s', run, fun home => apart ?_⟩
  exact (home writer place stored t idx (more.mem wrote) dropped).symm

end Sys

-----------------------------------------------------------------------------------------
-- Values stay with their threads
-----------------------------------------------------------------------------------------

open Sys in
/-- Whatever the marker traits of the values and whatever the threads do: in every run in which
each thread gives up last references only to values that it inserted, values are dropped by
the thread that inserted them. As soon as a thread is about to do otherwise, the run can go
on to the drop of a value by another thread than the one that inserted it.
-/
theorem dropped_at_home [DecidableEq T] [Fintype T] {dbg : Bool} {value : Markers} {main : Θ}
    {thread : T → Θ} {s : Sys T K V E}
    (run : Relation.ReflTransGen (HomeNext dbg value main thread) (.withKey T K V E) s)
    : s.DroppedAtHome thread
      ∧ ∀ t, MayAct value main (thread t) → ¬ s.TakesOwn thread t →
          ∃ s', Relation.ReflTransGen (SharedNext dbg value main thread) s s'
            ∧ ¬ s'.DroppedAtHome thread := by
  obtain ⟨reachable, home⟩ := releasedAtHome_of_run run
  obtain ⟨free, inv⟩ := reachable.inv
  refine ⟨fun writer place stored dropper idx wrote dropped => ?_, fun t may foreign => ?_⟩
  · exact home.dropped inv.owned.lawful wrote dropped
  · exact exists_not_droppedAtHome reachable may foreign

/-- A single thread inserts a value and removes its key. -/
def insertAndRemoveHere : List (Unit × Choice UInt64 Nat Empty) :=
  Sys.turns () (
    [.call .tryInsertWithKey, .go, .go, .go, .go, .go, .closureOk 7] ++ List.replicate 6 .go
    ++ .call (.remove ((1 : UInt64) <<< 32)) :: List.replicate 6 .go)

open Sys in
/-- That thread drops its value at home. -/
theorem dropped_at_home_insertAndRemoveHere
    : ∃ s : Sys Unit UInt64 Nat Empty,
        .dropped () 0 (some ⟨3, 7⟩) ∈ s.trace
        ∧ s.DroppedAtHome id := by
  have found : (Sys.run false (.withKey Unit UInt64 Nat Empty) insertAndRemoveHere).map
      (fun s => decide (.dropped () 0 (some ⟨3, 7⟩) ∈ s.trace)) = some true := by decide +kernel
  obtain ⟨s, reached, dropped⟩ := Option.map_eq_some_iff.mp found
  have run : Relation.ReflTransGen (HomeNext false ⟨false, true⟩ () id)
      (.withKey Unit UInt64 Nat Empty) s :=
    Relation.ReflTransGen.mono
      (fun _ _ ⟨t, choice, within, step⟩ =>
        ⟨t, choice, Or.inl rfl, within, fun _ _ _ _ _ _ _ _ _ _ => rfl, step⟩)
      _ _ (next_of_run reached)
  exact ⟨s, of_decide_eq_true dropped, (dropped_at_home run).1⟩

/-- Thread `true` inserts a value and thread `false` removes its key. -/
def insertHereRemoveThere : List (Bool × Choice UInt64 Nat Empty) :=
  Sys.turns true (
    [.call .tryInsertWithKey, .go, .go, .go, .go, .go, .closureOk 7] ++ List.replicate 6 .go)
  ++ Sys.turns false (.call (.remove ((1 : UInt64) <<< 32)) :: List.replicate 6 .go)

open Sys in
/-- A map of values that are `Sync` but not `Send` may be shared, and its values are dropped
away from home.
-/
theorem dropped_away_from_home
    : ¬ ∀ value : Markers, (Slot.markers value).sync = true → value.send = false →
        ∀ s : Sys Bool UInt64 Nat Empty,
          Relation.ReflTransGen (SharedNext false value true id)
            (.withKey Bool UInt64 Nat Empty) s
          → s.DroppedAtHome id := by
  intro always
  have found : (Sys.run false (.withKey Bool UInt64 Nat Empty) insertHereRemoveThere).map
      (fun s => (decide (.wrote true 0 ⟨3, 7⟩ ∈ s.trace),
        decide (.dropped false 0 (some ⟨3, 7⟩) ∈ s.trace))) = some (true, true) := by
    decide +kernel
  obtain ⟨s, reached, after⟩ := Option.map_eq_some_iff.mp found
  simp only [Prod.mk.injEq, decide_eq_true_eq] at after
  obtain ⟨wrote, dropped⟩ := after
  have run : Relation.ReflTransGen (SharedNext false ⟨false, true⟩ true id)
      (.withKey Bool UInt64 Nat Empty) s :=
    Relation.ReflTransGen.mono
      (fun _ _ ⟨t, choice, within, step⟩ => ⟨t, choice, Or.inl rfl, within, step⟩) _ _
      (next_of_run reached)
  cases always ⟨false, true⟩ rfl rfl s run true 0 ⟨3, 7⟩ false 0 wrote dropped

end AtomicSlotMap
