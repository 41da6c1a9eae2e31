import AtomicSlotMap.Correctness.Builds
import AtomicSlotMap.History.Rest

/-! The map panics only because of its users: a closure or a destructor panics, a layout
overflows, there are billions of references to one slot, or a reservation is too large. Its own
assertions never fail.
-/

namespace AtomicSlotMap

variable {T K V E : Type} [Key K]

/-- Whether a call has panicked, or will have once its waits are over. -/
def Pc.panicking : Pc K V E → Bool
  | .waitForChunk _ next | .assertRefCount _ next | .assertVersion _ next => next.panicking
  | .unwinding => true
  | _ => false

/-- User code does not panic, and the allocator accepts the layout. -/
def Choice.polite : Choice K V E → Bool
  | .panic | .layoutOverflow => false
  | _ => true

/-- A step that stays within the words of the free list and of the vector, in which user code does
not panic and the allocator accepts the layout. There are fewer references than a slot may have, and
a reservation fits in the index space.
-/
structure Sys.Polite [Fintype T] (s : Sys T K V E) (t : T) (choice : Choice K V E) : Prop where
  tag
    : ∀ old next seen, s.pc t = .popCas old next seen → s.freeHead = old →
        s.updates - seen < 2 ^ 32
  room : s.pc t = .pushZeroed → s.len + 1 < 2 ^ 32
  behaves : choice.polite = true
  references : s.guards.length + s.forgotten.length + Fintype.card T < MAX_REFCOUNT
  counted : ∀ additional, s.pc t = .reserveLen additional → s.numElems + additional < 2 ^ 64
  reserved : ∀ additional, s.pc t = .vecReserve additional → s.len + additional ≤ 2 ^ 32

section

variable {dbg : Bool} {s : Sys T K V E} {pc pc' : Pc K V E}

attribute [local simp] Pc.panicking

omit [Key K] in
@[simp] theorem Pc.panicking_exclusivelyOwned (idx : Nat) (next : Pc K V E)
    : (Pc.exclusivelyOwned dbg idx next).panicking = next.panicking := by
  cases dbg <;> rfl

omit [Key K] in
@[simp] theorem Pc.panicking_pushFreeIndex (idx : Nat) (after : AfterPush K E)
    : (Pc.pushFreeIndex dbg idx after : Pc K V E).panicking = false := by
  cases dbg <;> rfl

omit [Key K] in
@[simp] theorem Pc.panicking_popLoop (head updates : Nat)
    : (Pc.popLoop head updates : Pc K V E).panicking = false := by
  rw [Pc.popLoop]
  split <;> rfl

omit [Key K] in
@[simp] theorem Getter.panicking_missed (getter : Getter)
    : (getter.missed : Pc K V E).panicking = false := by
  cases getter <;> rfl

omit [Key K] in
@[simp] theorem AfterPush.panicking_resume (after : AfterPush K E)
    : (after.resume : Pc K V E).panicking = false := by
  cases after <;> simp [AfterPush.resume, Pc.panicking]

omit [Key K] in
@[simp] theorem AfterEnsure.panicking_resume (after : AfterEnsure)
    : (after.resume : Pc K V E).panicking = false := by
  cases after with
  | pushed idx => rfl
  | reserving chunk maxChunk =>
      simp only [AfterEnsure.resume]
      split <;> rfl

omit [Key K] in
@[simp] theorem Res.panicking_rest (res : Res K V E) : res.rest.panicking = false := by
  cases res <;> rfl

/-- A move of a program counter is no panic, by cases on the move. -/
theorem Pc.Goes.panicking (goes : pc.Goes dbg s pc') : pc'.panicking = pc.panicking := by
  cases goes <;> simp [Pc.panicking]

theorem Pc.Answers.panicking {res : Res K V E} (answers : pc.Answers dbg s res pc')
    : pc'.panicking = false := by
  cases answers <;> simp [Pc.panicking]

theorem Pc.Decrements.panicking {needsDrop otherwise : Pc K V E} {idx : Nat}
    (decrements : pc.Decrements idx needsDrop otherwise)
    : needsDrop.panicking = false ∧ otherwise.panicking = false := by
  cases decrements <;> simp [Pc.panicking]

theorem Op.Starts.panicking {op : Op K} (starts : op.Starts s pc) : pc.panicking = false := by
  cases starts <;> rfl

end

namespace Sys

variable [DecidableEq T] {dbg : Bool} {s s' : Sys T K V E} {t : T} {choice : Choice K V E}
  {free : List Nat}

/-- Where a call may panic. -/
inductive Panics (dbg : Bool) (s : Sys T K V E) (t : T) : Prop
  | failed (fails : (s.pc t).Fails dbg s)
  | destructor (idx : Nat) (after : AfterPush K E) (about : s.pc t = .dropValue idx after)
  | cloning (guard : Guard K V) (about : s.pc t = .cloneInc guard)
    (full : MAX_REFCOUNT < (s.slots (KeyData.idx guard.key)).refCount)

omit [DecidableEq T] in
/-- A call panics nowhere else, by cases on where a step leads. -/
theorem Leads.panics {pc : Pc K V E} (leads : s.Leads dbg t pc)
    (calm : (s.pc t).panicking = false) (panicking : pc.panicking = true)
    : s.Panics dbg t := by
  have never {pc' : Pc K V E} (other : pc'.panicking = false) (panicking : pc'.panicking = true) :
      s.Panics dbg t := by
    rw [other] at panicking
    cases panicking
  cases leads with
  | stay => exact never calm panicking
  | go pc goes => exact never (goes.panicking.trans calm) panicking
  | answered res pc answers => exact never answers.panicking panicking
  | began op pc calls starts => exact never starts.panicking panicking
  | released idx needsDrop otherwise decrements => exact never decrements.panicking.1 panicking
  | gaveUp idx needsDrop otherwise decrements => exact never decrements.panicking.2 panicking
  | failed fails => exact .failed fails
  | dropPanicked idx after about => exact .destructor idx after about
  | refused guard about full => exact .cloning guard about full
  | popped => exact never (Pc.panicking_exclusivelyOwned ..) panicking
  | recycled idx old after => exact never after.panicking_resume panicking
  | dropped => exact never (Pc.panicking_pushFreeIndex ..) panicking
  | ensured after => exact never after.panicking_resume panicking
  | returned res => exact never res.panicking_rest panicking
  | _ => exact never rfl panicking

variable [Fintype T]

/-- The count of a slot is at most the number of guards and activities, and one for the map; by
cases on the phase.
-/
theorem Inv.refCount_le (inv : s.Inv free) (idx : Nat)
    : (s.slots idx).refCount ≤ 1 + (s.guards.length + s.forgotten.length + Fintype.card T) := by
  have guards : s.guardsOn idx ≤ s.guards.length + s.forgotten.length := by
    rw [← List.length_append]
    exact List.countP_le_length
  have flying : s.inFlightOn idx ≤ Fintype.card T := Finset.card_le_univ _
  have fits := inv.slot_fits idx
  cases phase : (s.view free).phase idx with
  | armed holder stored =>
      rw [phase] at fits
      have count := fits.2.1
      omega
  | live key stored =>
      rw [phase] at fits
      have count := fits.2.2.1
      omega
  | retired key stored remover =>
      rw [phase] at fits
      have count := fits.2.2.1
      split at count <;> omega
  | dropping holder key stored =>
      rw [phase] at fits
      have count := fits.2.2.1
      omega
  | unborn | free | held | filled | emptied | lost =>
      rw [phase] at fits
      have count := fits.2.1
      omega

/-- A polite step is within the limits. -/
theorem Polite.within (polite : s.Polite t choice) (inv : s.Inv free) : s.Within t where
  tag := polite.tag
  room := polite.room
  clone := fun guard _ => by
    have bounded := inv.refCount_le (KeyData.idx guard.key)
    have references := polite.references
    omega

/-- A polite step is no panic, by cases on where it might be. -/
theorem Polite.calm (polite : s.Polite t choice) (inv : s.Inv free)
    (calm : (s.pc t).panicking = false) (found : step dbg s t choice = some s')
    : (s'.pc t).panicking = false := by
  by_contra panicking
  have few (idx : Nat) : (s.slots idx).refCount ≤ MAX_REFCOUNT := by
    have bounded := inv.refCount_le idx
    have references := polite.references
    omega
  have vacant {idx : Nat} (holds : (s.pc t).role.vacant idx) :
      (s.slots idx).version % 2 = 0 ∧ (s.slots idx).refCount = 0 := by
    obtain ⟨even, zero, _⟩ := inv.owned.slot_vacant (t := t) holds
    exact ⟨even, zero⟩
  have fits := inv.fits t
  cases (step_moves found).leads.panics calm (Bool.of_not_eq_false panicking) with
  | destructor idx after about =>
      simp only [step, about] at found
      cases choice with
      | go =>
          cases found
          rw [pc_goto_self, Pc.panicking_pushFreeIndex] at panicking
          exact panicking rfl
      | panic => cases polite.behaves
      | _ => cases found
  | cloning guard _ full => exact absurd (few _) (Nat.not_le_of_lt full)
  | failed fails =>
      generalize about : s.pc t = pc at fails
      cases fails with
      | referenced idx next positive =>
          rw [about] at vacant fits
          exact positive (vacant fits.1).2
      | occupied idx next odd =>
          rw [about] at vacant fits
          have even := (vacant fits.1).1
          omega
      | closure idx version =>
          simp only [step, about] at found
          cases choice with
          | closureOk value =>
              cases found
              simp [Pc.panicking] at panicking
          | closureErr err =>
              cases found
              simp at panicking
          | panic => cases polite.behaves
          | _ => cases found
      | layoutOverflow chunk after =>
          simp only [step, about] at found
          cases choice with
          | go | allocNull =>
              cases found
              simp [Pc.panicking] at panicking
          | layoutOverflow => cases polite.behaves
          | _ => cases found
      | acquireLoad key getter full => exact absurd (few _) (Nat.not_le_of_lt full)
      | acquireAgain key getter refcount full => exact absurd (few _) (Nat.not_le_of_lt full)
      | reserveLen additional overflow =>
          rw [addUsize_of_fits (polite.counted additional about)] at overflow
          cases overflow
      | vecReserve additional overflow =>
          have fits := polite.reserved additional about
          rw [addUsize_of_fits (by omega)] at overflow
          rcases overflow with none | ⟨targetCap, same, large⟩
          · cases none
          · cases same
            omega

/-- A run of polite steps. -/
def PoliteNext (dbg : Bool) (s s' : Sys T K V E) : Prop :=
  ∃ t choice, s.Polite t choice ∧ step dbg s t choice = some s'

/-- Nobody panics in such a run, by induction on the run. -/
theorem calm_of_polite (run : Relation.ReflTransGen (PoliteNext dbg) (.withKey T K V E) s)
    : Calm dbg s ∧ ∀ t, (s.pc t).panicking = false := by
  induction run with
  | refl => exact ⟨.refl, fun _ => rfl⟩
  | tail _ next ih =>
      obtain ⟨run, calm⟩ := ih
      obtain ⟨t, choice, polite, found⟩ := next
      obtain ⟨free, inv⟩ := run.reachable.inv
      have still := polite.calm inv (calm t) found
      refine ⟨run.tail ⟨t, choice, polite.within inv, found, fun unwinding => ?_⟩, fun other => ?_⟩
      · rw [unwinding] at still
        cases still
      · by_cases self : other = t
        · exact self ▸ still
        · rw [(step_moves found).others other self]
          exact calm other

/-- The check of the limits of polite steps. -/
def polite? (s : Sys T K V E) (t : T) : Bool :=
  s.within? t && decide (s.guards.length + s.forgotten.length + Fintype.card T < MAX_REFCOUNT)
  && match s.pc t with
    | .reserveLen additional => decide (s.numElems + additional < 2 ^ 64)
    | .vecReserve additional => decide (s.len + additional ≤ 2 ^ 32)
    | _ => true

omit [DecidableEq T] in
/-- The check decides the limits, by cases on the program counter. -/
theorem polite_of_polite? (checked : s.polite? t = true) (behaves : choice.polite = true)
    : s.Polite t choice := by
  simp only [polite?, Bool.and_eq_true, decide_eq_true_eq] at checked
  obtain ⟨⟨within, references⟩, reserves⟩ := checked
  obtain ⟨tag, room, _⟩ := within_of_within? within
  refine ⟨tag, room, behaves, references, fun additional about => ?_, fun additional about => ?_⟩
  · simpa [about] using reserves
  · simpa [about] using reserves

/-- A schedule in which user code behaves runs by polite steps, by induction on the schedule. -/
theorem polite_of_runIf {schedule : List (T × Choice K V E)}
    (found : runIf polite? dbg s schedule = some s')
    (behaves : ∀ entry ∈ schedule, entry.2.polite = true)
    : Relation.ReflTransGen (PoliteNext dbg) s s' := by
  induction schedule generalizing s with
  | nil =>
      cases found
      exact .refl
  | cons head schedule ih =>
      obtain ⟨t, choice⟩ := head
      simp only [runIf, Option.ite_none_right_eq_some] at found
      obtain ⟨checked, found⟩ := found
      obtain ⟨middle, first, rest⟩ := Option.bind_eq_some_iff.mp found
      have now := behaves (t, choice) List.mem_cons_self
      exact .head ⟨t, choice, polite_of_polite? checked now, first⟩
        (ih rest fun entry member => behaves entry (List.mem_cons_of_mem _ member))

end Sys

open Sys in
/-- In every run, of either build, in which user code does not panic, the allocator accepts the
layouts, there are fewer references than a slot may have and reservations fit in the index space, no
call panics: no assertion fails, no addition overflows, no slot is lost, and what is shown of runs
without panics holds of it.
-/
theorem panic_free [DecidableEq T] [Fintype T] {dbg : Bool} {s : Sys T K V E}
    (run : Relation.ReflTransGen (PoliteNext dbg) (.withKey T K V E) s)
    : Calm dbg s ∧ (∀ t, s.pc t ≠ .unwinding) ∧ s.NothingLost :=
  have calm := (calm_of_polite run).1
  ⟨calm, calm.awake, calm.nothingLost⟩

/-- A single activity reserves, inserts a value, gets a guard on it, removes the key and drops the
guard.
-/
def reserveInsertGetRemove : List (Unit × Choice UInt64 Nat Empty) :=
  Sys.turns () (
    .call (.reserve 3) :: List.replicate 7 .go
    ++ [.call .tryInsertWithKey, .go, .go, .go, .closureOk 7] ++ List.replicate 8 .go
    ++ .call (.get ((1 : UInt64) <<< 32) true) :: List.replicate 6 .go
    ++ .call (.remove ((1 : UInt64) <<< 32)) :: List.replicate 7 .go
    ++ .call (.dropGuard 0) :: List.replicate 11 .go)

/-- That run goes through the assertions of both pushes to its end. -/
theorem panic_free_reserveInsertGetRemove
    : ∃ s : Sys Unit UInt64 Nat Empty,
        .recycled () 0 ∈ s.trace ∧ s.pc () ≠ .unwinding ∧ s.NothingLost := by
  have found : (Sys.runIf Sys.polite? true (.withKey Unit UInt64 Nat Empty)
      reserveInsertGetRemove).map (fun s => decide (.recycled () 0 ∈ s.trace))
      = some true := by decide +kernel
  obtain ⟨s, reached, recycled⟩ := Option.map_eq_some_iff.mp found
  obtain ⟨_, awake, nothingLost⟩ := panic_free (Sys.polite_of_runIf reached (by decide))
  exact ⟨s, of_decide_eq_true recycled, awake (), nothingLost⟩

end AtomicSlotMap
