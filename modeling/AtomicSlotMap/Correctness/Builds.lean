import AtomicSlotMap.Correctness.Partition
import AtomicSlotMap.Library.Simulation

/-! The two builds. The build with `debug_assertions` differs from the other one in the assertions
that a slot is exclusively owned and in additions that overflow. As long as no addition overflows,
the two are the same program: they have the same runs up to the steps of the assertions.
-/

namespace AtomicSlotMap

variable {T K V E : Type} [Key K]

/-- What the build without assertions has for a program counter. -/
def Pc.unasserted : Pc K V E → Pc K V E
  | .waitForChunk idx next => .waitForChunk idx next.unasserted
  | .assertRefCount _ next | .assertVersion _ next => next.unasserted
  | pc => pc

/-- An assertion comes next. -/
def Pc.asserts : Pc K V E → Bool
  | .assertRefCount _ _ | .assertVersion _ _ => true
  | _ => false

/-- What the build without assertions has for a state. -/
def Sys.unasserted (s : Sys T K V E) : Sys T K V E :=
  { s with pc := fun t => (s.pc t).unasserted }

section

variable {pc : Pc K V E}

omit [Key K] in
@[simp] theorem Pc.unasserted_exclusivelyOwned (dbg : Bool) (idx : Nat) (next : Pc K V E)
    : (Pc.exclusivelyOwned dbg idx next).unasserted = next.unasserted := by
  cases dbg <;> rfl

omit [Key K] in
@[simp] theorem Pc.unasserted_pushFreeIndex (dbg : Bool) (idx : Nat) (after : AfterPush K E)
    : (Pc.pushFreeIndex dbg idx after : Pc K V E).unasserted
      = Pc.pushFreeIndex false idx after := by
  cases dbg <;> rfl

omit [Key K] in
@[simp] theorem Pc.unasserted_popLoop (head updates : Nat)
    : (Pc.popLoop head updates : Pc K V E).unasserted = Pc.popLoop head updates := by
  rw [Pc.popLoop]
  split <;> rfl

omit [Key K] in
@[simp] theorem Getter.unasserted_missed (getter : Getter)
    : (getter.missed : Pc K V E).unasserted = getter.missed := by
  cases getter <;> rfl

omit [Key K] in
@[simp] theorem AfterPush.unasserted_resume (after : AfterPush K E)
    : (after.resume : Pc K V E).unasserted = after.resume := by
  cases after <;> simp [AfterPush.resume, Pc.unasserted]

omit [Key K] in
@[simp] theorem AfterEnsure.unasserted_resume (after : AfterEnsure)
    : (after.resume : Pc K V E).unasserted = after.resume := by
  cases after with
  | pushed idx => rfl
  | reserving chunk maxChunk =>
      simp only [AfterEnsure.resume]
      split <;> rfl

omit [Key K] in
@[simp] theorem Res.unasserted_rest (res : Res K V E) : res.rest.unasserted = res.rest := by
  cases res <;> rfl

omit [Key K] in
/-- Assertions hold no slot of their own, by induction on the waits. -/
@[simp] theorem Pc.holds_unasserted : pc.unasserted.holds = pc.holds := by
  induction pc with
  | waitForChunk _ _ ih | assertRefCount _ _ ih | assertVersion _ _ ih => exact ih
  | _ => rfl

omit [Key K] in
@[simp] theorem Pc.borrows_unasserted : pc.unasserted.borrows = pc.borrows := by
  induction pc with
  | waitForChunk _ _ ih | assertRefCount _ _ ih | assertVersion _ _ ih => exact ih
  | _ => rfl

end

namespace Sys

section

variable [DecidableEq T] (s : Sys T K V E) (t : T)

omit [Key K] [DecidableEq T] in
@[simp] theorem pc_unasserted : s.unasserted.pc t = (s.pc t).unasserted := rfl

omit [Key K] in
@[simp] theorem unasserted_goto (pc : Pc K V E)
    : (s.goto t pc).unasserted = s.unasserted.goto t pc.unasserted := by
  simp only [unasserted, goto, Sys.mk.injEq, true_and, and_true]
  funext other
  by_cases self : other = t
  · subst other
    simp
  · simp [self]

omit [Key K] [DecidableEq T] in
@[simp] theorem unasserted_answer (res : Res K V E)
    : (s.answer t res).unasserted = s.unasserted.answer t res := by
  simp only [answer, unasserted]
  split <;> rfl

omit [Key K] in
@[simp] theorem unasserted_finish (event : Nat → HistoryEvent K V E)
    : (s.finish t event).unasserted = s.unasserted.finish t event := by
  simp only [finish, unasserted]
  split <;> rfl

omit [Key K] in
@[simp] theorem unasserted_unwind : (s.unwind t).unasserted = s.unasserted.unwind t := by
  simp only [unwind, pc_unasserted, Pc.holds_unasserted]
  split <;> rw [unasserted_goto] <;> rfl

omit [Key K] [DecidableEq T] in
@[simp] theorem unasserted_miss (getter : Getter)
    : (s.miss t getter).unasserted = s.unasserted.miss t getter := by
  cases getter <;> simp [miss]

omit [Key K] in
@[simp] theorem unasserted_acquireLoop (key : K) (getter : Getter) (refcount : Nat)
    : (s.acquireLoop t key getter refcount).unasserted
      = s.unasserted.acquireLoop t key getter refcount := by
  simp only [acquireLoop]
  split
  · exact unasserted_unwind s t
  · split <;> simp [Pc.unasserted]

@[simp] theorem unasserted_acquireCheck (key : K) (getter : Getter)
    : (s.acquireCheck t key getter).unasserted = s.unasserted.acquireCheck t key getter := by
  simp only [acquireCheck]
  rw [apply_ite unasserted, unasserted_goto, unasserted_goto, unasserted_answer, unasserted_miss]
  rfl

omit [Key K] in
theorem unasserted_decRefCount (idx : Nat) (needsDrop otherwise : Pc K V E)
    : (s.decRefCount t idx needsDrop otherwise).unasserted
      = s.unasserted.decRefCount t idx needsDrop.unasserted otherwise.unasserted := by
  simp only [decRefCount]
  rw [apply_ite unasserted, unasserted_goto, unasserted_goto]
  rfl

theorem unasserted_cloneGuard (guard : Guard K V)
    : (s.cloneGuard t guard).unasserted = s.unasserted.cloneGuard t guard := by
  simp only [cloneGuard]
  rw [apply_ite unasserted, unasserted_goto, unasserted_answer, unasserted_unwind]
  rfl

theorem unasserted_removeLoop (key : K) (current : Nat)
    : (s.removeLoop t key current).unasserted = s.unasserted.removeLoop t key current := by
  simp only [removeLoop]
  rw [apply_ite unasserted, unasserted_goto, unasserted_goto, unasserted_answer]
  rfl

theorem unasserted_removeExchange (key : K) (current : Nat)
    : (s.removeExchange t key current).unasserted = s.unasserted.removeExchange t key current := by
  simp only [removeExchange]
  rw [apply_ite unasserted, unasserted_goto, unasserted_answer, unasserted_removeLoop]
  rfl

omit [Key K] in
theorem unasserted_popExchange (dbg : Bool) (old next : Nat)
    : (popExchange dbg s t old next).unasserted = popExchange false s.unasserted t old next := by
  simp only [popExchange]
  rw [unasserted_goto, Pc.unasserted_exclusivelyOwned]
  rfl

omit [Key K] in
theorem unasserted_pushExchange (idx old : Nat) (after : AfterPush K E)
    : (s.pushExchange t idx old after).unasserted = s.unasserted.pushExchange t idx old after := by
  simp only [pushExchange]
  rw [unasserted_goto, AfterPush.unasserted_resume]
  rfl

omit [Key K] in
theorem unasserted_installChunk (chunk : Nat) (new : Option Nat) (after : AfterEnsure)
    : (s.installChunk t chunk new after).unasserted
      = s.unasserted.installChunk t chunk new after := by
  simp only [installChunk]
  rw [apply_ite unasserted, unasserted_goto, unasserted_goto, AfterEnsure.unasserted_resume]
  rfl

end

/-- The `usize` additions that an activity makes next do not overflow. -/
structure Sums (s : Sys T K V E) (t : T) : Prop where
  elems : ∀ additional, s.pc t = .reserveLen additional → s.numElems + additional < 2 ^ 64
  slots : ∀ additional, s.pc t = .vecReserve additional → s.len + additional < 2 ^ 64

end Sys

section

variable {α β : Type} (f : α → β)

omit [Key K] in
theorem Choice.map_onGo (choice : Choice K V E) (next : α)
    : (choice.onGo next).map f = choice.onGo (f next) := by
  cases choice <;> rfl

omit [Key K] in
theorem Choice.map_onWeak (choice : Choice K V E) (expected : Bool) (done retry : α)
    : (choice.onWeak expected done retry).map f = choice.onWeak expected (f done) (f retry) := by
  cases choice <;> cases expected <;> rfl

end

namespace Sys

variable [DecidableEq T] [Fintype T] {dbg : Bool} {s s' : Sys T K V E} {t : T}

omit [Key K] [Fintype T] in
@[simp] theorem unasserted_begin (op : Op K)
    : (s.begin t op).unasserted = s.unasserted.begin t op := rfl

/-- Both builds start calls in the same way, by cases on the call. -/
theorem unasserted_call (op : Op K)
    : (s.call t op).map unasserted = s.unasserted.call t op := by
  cases op with
  | dropGuard id | forgetGuard id =>
      simp only [call, pc_unasserted, Pc.borrows_unasserted]
      split
      · rfl
      · rw [Option.map_map]
        refine congrArg₂ Option.map (funext fun found => ?_) rfl
        rw [Function.comp_apply, unasserted_goto, unasserted_answer]
        rfl
  | cloneGuard id | derefGuard id =>
      simp only [call, Option.map_map]
      refine congrArg₂ Option.map (funext fun guard => ?_) rfl
      simp only [Function.comp_apply, unasserted_goto, unasserted_answer]
      rfl
  | reserve additional =>
      simp only [call, Option.map_some, unasserted_goto, unasserted_answer]
      rfl
  | _ =>
      simp only [call, Option.map_some, unasserted_goto]
      rfl

omit [Key K] in
omit [Fintype T] in
theorem unasserted_vecReserve {additional : Nat} (fits : s.len + additional < 2 ^ 64)
    : (s.vecReserve dbg t additional).unasserted
      = s.unasserted.vecReserve false t additional := by
  simp only [vecReserve]
  rw [show s.unasserted.len = s.len from rfl, addUsize_of_fits fits, addUsize_of_fits fits]
  simp only
  rw [apply_ite unasserted, apply_ite unasserted, unasserted_goto, unasserted_goto,
    unasserted_unwind]
  rfl

/-- Apart from the assertions, both builds make the same steps, by cases on the program counter. -/
theorem step_unasserted (choice : Choice K V E) (passed : (s.pc t).asserts = false)
    (sums : s.Sums t)
    : step false s.unasserted t choice = (step dbg s t choice).map unasserted := by
  cases about : s.pc t with
  | assertRefCount | assertVersion =>
      rw [about] at passed
      cases passed
  | idle =>
      simp only [step, about, pc_unasserted, Pc.unasserted]
      cases choice with
      | call op =>
          simp only
          split
          · rfl
          · exact (unasserted_call op).symm
      | iterate => simp [Pc.unasserted]
      | _ => rfl
  | iterating currentIdx =>
      simp only [step, about, pc_unasserted, Pc.unasserted]
      cases choice with
      | call op =>
          simp only
          split
          · exact (unasserted_call op).symm
          · rfl
      | endIterate => simp [Pc.unasserted]
      | _ => rfl
  | closure idx version =>
      simp only [step, about, pc_unasserted, Pc.unasserted]
      cases choice with
      | closureOk value =>
          simp only [Option.map_some, unasserted_goto, Pc.unasserted,
            Pc.unasserted_exclusivelyOwned]
          rfl
      | closureErr err => simp
      | panic => simp
      | _ => rfl
  | ensureAlloc chunk after =>
      simp only [step, about, pc_unasserted, Pc.unasserted]
      cases choice <;> simp [Pc.unasserted]
      rfl
  | dropValue idx after =>
      simp only [step, about, pc_unasserted, Pc.unasserted]
      cases choice <;> simp <;> rfl
  | reserveLen additional =>
      simp only [step, about, pc_unasserted, Pc.unasserted, Choice.map_onGo]
      rw [show s.unasserted.numElems = s.numElems from rfl,
        addUsize_of_fits (sums.elems _ about), addUsize_of_fits (sums.elems _ about)]
      simp only [unasserted_goto, Pc.unasserted]
  | vecReserve additional =>
      simp only [step, about, pc_unasserted, Pc.unasserted, Choice.map_onGo]
      rw [unasserted_vecReserve (sums.slots _ about)]
  | popCas | pushCas =>
      simp only [step, about, pc_unasserted, Pc.unasserted, Choice.map_onWeak, unasserted_goto,
        unasserted_popExchange, unasserted_pushExchange, Pc.unasserted_popLoop]
      rfl
  | acquireCas =>
      simp only [step, about, pc_unasserted, Pc.unasserted, Choice.map_onWeak, unasserted_goto,
        unasserted_acquireLoop]
      rfl
  | removeDec | acquireDec | unguardDec =>
      simp only [step, about, pc_unasserted, Pc.unasserted, Choice.map_onGo,
        unasserted_decRefCount, Getter.unasserted_missed]
  | pushZeroed | insertWrite | insertRefCount | insertPublish =>
      simp only [step, about, pc_unasserted, Pc.unasserted, Choice.map_onGo, Sys.pushZeroed,
        writeValue, storeRefCount, publish, unasserted_goto, unasserted_answer]
      rfl
  | acquireVersion | removeCas | ensureCas | cloneInc | ret | unwinding =>
      simp only [step, about, pc_unasserted, Pc.unasserted, Choice.map_onGo, unasserted_goto,
        unasserted_acquireCheck, unasserted_removeExchange, unasserted_installChunk,
        unasserted_cloneGuard, unasserted_finish, Res.unasserted_rest]
  | _ =>
      simp only [step, about, pc_unasserted, Pc.unasserted, Choice.map_onGo,
        apply_ite unasserted, apply_ite Pc.unasserted, unasserted_goto, unasserted_answer,
        unasserted_miss, unasserted_acquireLoop, unasserted_removeLoop, Pc.unasserted_popLoop,
        Getter.unasserted_missed, AfterEnsure.unasserted_resume]
      rfl

-----------------------------------------------------------------------------------------
-- Runs
-----------------------------------------------------------------------------------------

/-- A step within the limits of the words in which no addition overflows. -/
def ExactStep (dbg : Bool) (s s' : Sys T K V E) : Prop :=
  ∃ t choice, s.Within t ∧ s.Sums t ∧ step dbg s t choice = some s'

/-- The states that a build reaches by such steps. -/
def Runs (dbg : Bool) (s : Sys T K V E) : Prop :=
  Relation.ReflTransGen (ExactStep dbg) (.withKey T K V E) s

theorem Runs.reachable (runs : Runs dbg s) : Reachable dbg s :=
  Relation.ReflTransGen.mono
    (fun _ _ ⟨t, choice, within, _, found⟩ => ⟨t, choice, within, found⟩) _ _ runs

omit [DecidableEq T] in
omit [Fintype T] in
/-- What an activity does within the limits at its own program counter, it does so in every state
with the same words.
-/
theorem Within.of_same {r : Sys T K V E} (within : s.Within t) (pc : r.pc t = s.pc t)
    (slots : r.slots = s.slots) (len : r.len = s.len) (freeHead : r.freeHead = s.freeHead)
    (updates : r.updates = s.updates)
    : r.Within t := by
  constructor
  · rw [pc, freeHead, updates]
    exact within.tag
  · rw [pc, len]
    exact within.room
  · rw [pc, slots]
    exact within.clone

omit [Key K] [DecidableEq T] in
omit [Fintype T] in
theorem Sums.of_same {r : Sys T K V E} (sums : s.Sums t) (pc : r.pc t = s.pc t)
    (numElems : r.numElems = s.numElems) (len : r.len = s.len)
    : r.Sums t := by
  constructor
  · rw [pc, numElems]
    exact sums.elems
  · rw [pc, len]
    exact sums.slots

end Sys

omit [Key K] in
/-- Behind its assertions a program counter is the same in both builds, but for what follows a
wait.
-/
theorem Pc.unasserted_of_passed {pc : Pc K V E} (passed : pc.asserts = false)
    : pc.unasserted = pc ∨ ∃ idx next, pc = .waitForChunk idx next := by
  cases pc with
  | waitForChunk idx next => exact Or.inr ⟨idx, next, rfl⟩
  | assertRefCount | assertVersion => cases passed
  | _ => exact Or.inl rfl

namespace Sys

variable [DecidableEq T] [Fintype T] {dbg : Bool} {s s' : Sys T K V E} {t : T}

omit [DecidableEq T] in
omit [Fintype T] in
theorem limits_unasserted (passed : (s.pc t).asserts = false)
    : (s.unasserted.Within t ∧ s.unasserted.Sums t) ↔ (s.Within t ∧ s.Sums t) := by
  rcases Pc.unasserted_of_passed passed with same | ⟨idx, next, about⟩
  · exact ⟨fun ⟨within, sums⟩ => ⟨within.of_same same.symm rfl rfl rfl rfl,
        sums.of_same same.symm rfl rfl⟩,
      fun ⟨within, sums⟩ => ⟨within.of_same same rfl rfl rfl rfl, sums.of_same same rfl rfl⟩⟩
  · have about' : s.unasserted.pc t = .waitForChunk idx next.unasserted := by
      rw [pc_unasserted, about]
      rfl
    have calm {r : Sys T K V E} {next : Pc K V E} (about : r.pc t = .waitForChunk idx next) :
        r.Within t ∧ r.Sums t := by
      constructor <;> constructor <;> simp [about]
    exact iff_of_true (calm about') (calm about)

/-- Where ownership is asserted, the slot is owned: the assertion passes. -/
theorem Reachable.passes (reachable : Reachable dbg s) {idx : Nat} {next : Pc K V E}
    (about : s.pc t = .assertRefCount idx next ∨ s.pc t = .assertVersion idx next)
    : step dbg s t .go = some (s.goto t next) := by
  obtain ⟨free, inv⟩ := reachable.inv
  have fits := inv.fits t
  have vacant : (s.pc t).role.vacant idx := by
    rcases about with about | about <;>
      · rw [about] at fits ⊢
        exact fits.1
  obtain ⟨even, zero, _⟩ := inv.owned.slot_vacant (t := t) vacant
  change (s.slots idx).version % 2 = 0 at even
  change (s.slots idx).refCount = 0 at zero
  rcases about with about | about
  · simp [step, about, Choice.onGo, zero]
  · simp [step, about, Choice.onGo, even]

omit [Key K] in
omit [Fintype T] in
/-- The build without assertions takes no notice when one is passed. -/
theorem unasserted_pass {next : Pc K V E} (same : (s.pc t).unasserted = next.unasserted)
    : (s.goto t next).unasserted = s.unasserted := by
  rw [unasserted_goto, goto, ← same, ← pc_unasserted, Function.update_eq_self]

/-- An activity gets past its assertions, and the other build takes no notice; by induction on the
program counter.
-/
theorem Runs.exists_passed (runs : Runs dbg s) (t : T)
    : ∃ s', Relation.ReflTransGen (ExactStep dbg) s s'
        ∧ s'.unasserted = s.unasserted
        ∧ (s'.pc t).asserts = false := by
  have limits {s : Sys T K V E} (asserts : (s.pc t).asserts = true) : s.Within t ∧ s.Sums t := by
    constructor <;> constructor <;> intros <;> simp_all [Pc.asserts]
  generalize about : s.pc t = pc
  induction pc generalizing s with
  | assertRefCount idx next ih =>
      obtain ⟨within, sums⟩ := limits (about ▸ rfl : (s.pc t).asserts = true)
      have first : ExactStep dbg s (s.goto t next) :=
        ⟨t, .go, within, sums, runs.reachable.passes (Or.inl about)⟩
      obtain ⟨s', rest, same, passed⟩ := ih (runs.tail first) (pc_goto_self s t next)
      exact ⟨s', .head first rest, same.trans (unasserted_pass (about ▸ rfl)), passed⟩
  | assertVersion idx next ih =>
      obtain ⟨within, sums⟩ := limits (about ▸ rfl : (s.pc t).asserts = true)
      have first : ExactStep dbg s (s.goto t next) :=
        ⟨t, .go, within, sums, runs.reachable.passes (Or.inr about)⟩
      obtain ⟨s', rest, same, passed⟩ := ih (runs.tail first) (pc_goto_self s t next)
      exact ⟨s', .head first rest, same.trans (unasserted_pass (about ▸ rfl)), passed⟩
  | _ => exact ⟨s, .refl, rfl, about ▸ rfl⟩

/-- A step at an assertion passes it. -/
theorem Reachable.unasserted_of_asserts (reachable : Reachable dbg s) {choice : Choice K V E}
    (asserts : (s.pc t).asserts = true) (found : step dbg s t choice = some s')
    : s'.unasserted = s.unasserted := by
  have passing {idx : Nat} {next : Pc K V E}
      (about : s.pc t = .assertRefCount idx next ∨ s.pc t = .assertVersion idx next) :
      s' = s.goto t next := by
    have passes := reachable.passes about
    cases choice with
    | go => exact Option.some.inj (found.symm.trans passes)
    | _ => rcases about with about | about <;> simp [step, about, Choice.onGo] at found
  cases about : s.pc t with
  | assertRefCount idx next =>
      rw [passing (Or.inl about)]
      exact unasserted_pass (about ▸ rfl)
  | assertVersion idx next =>
      rw [passing (Or.inr about)]
      exact unasserted_pass (about ▸ rfl)
  | _ =>
      rw [about] at asserts
      cases asserts

/-- The build without assertions simulates the other one: it matches a step by the same step, and
takes no notice of an assertion.
-/
theorem simulates_unasserted
    : Library.Simulates (ExactStep (T := T) (K := K) (V := V) (E := E) true) (ExactStep false)
        fun s r => Runs true s ∧ s.unasserted = r := by
  rintro s s' _ ⟨runs, rfl⟩ ⟨t, choice, within, sums, found⟩
  have last : Runs true s' := runs.tail ⟨t, choice, within, sums, found⟩
  cases asserts : (s.pc t).asserts with
  | false =>
      obtain ⟨within', sums'⟩ := (limits_unasserted asserts).mpr ⟨within, sums⟩
      refine ⟨s'.unasserted, .single ⟨t, choice, within', sums', ?_⟩, last, rfl⟩
      have erased : step false s.unasserted t choice = (step true s t choice).map unasserted :=
        step_unasserted choice asserts sums
      rw [erased, found]
      rfl
  | true =>
      have same := runs.reachable.unasserted_of_asserts asserts found
      exact ⟨s.unasserted, .refl, last, same⟩

/-- The build with assertions simulates the other one: it passes the assertions that an activity
is at before it makes the activity's step.
-/
theorem simulates_asserted
    : Library.Simulates (ExactStep (T := T) (K := K) (V := V) (E := E) false) (ExactStep true)
        fun r s => Runs true s ∧ s.unasserted = r := by
  rintro _ r s ⟨runs, rfl⟩ ⟨t, choice, within, sums, found⟩
  obtain ⟨passed, run, same, past⟩ := runs.exists_passed t
  rw [← same] at within sums found
  obtain ⟨within', sums'⟩ := (limits_unasserted past).mp ⟨within, sums⟩
  have erased : step false passed.unasserted t choice
      = (step true passed t choice).map unasserted :=
    step_unasserted choice past sums'
  rw [erased] at found
  obtain ⟨s', moved, rfl⟩ := Option.map_eq_some_iff.mp found
  have rest := run.tail ⟨t, choice, within', sums', moved⟩
  exact ⟨s', rest, runs.trans rest, rfl⟩

end Sys

open Sys in
/-- The build without debug assertions reaches a state if and only if the build with them reaches
one with the same memory, guards and history, in which activities may still be at assertions: no
assertion fails, and none changes what the program can do.
-/
theorem builds_agree [DecidableEq T] [Fintype T] (s : Sys T K V E)
    : Runs false s ↔ ∃ asserted, Runs true asserted ∧ asserted.unasserted = s := by
  have related : Runs true (.withKey T K V E)
      ∧ unasserted (.withKey T K V E) = .withKey T K V E :=
    ⟨.refl, rfl⟩
  constructor
  · intro runs
    obtain ⟨asserted, _, reached⟩ := simulates_asserted.run related runs
    exact ⟨asserted, reached⟩
  · rintro ⟨asserted, runs, rfl⟩
    obtain ⟨_, reached, _, rfl⟩ := simulates_unasserted.run related runs
    exact reached

end AtomicSlotMap
