import AtomicSlotMap.Correctness.GuardSafety
import AtomicSlotMap.Correctness.ChunkOrder
import AtomicSlotMap.History.Contents

/-! Operations on absent keys. On a single thread they find nothing and leave the map as it is,
although a failing `get` raises and lowers a reference count on the way.
-/

namespace AtomicSlotMap

variable {T K V E : Type} [Key K]

namespace Sys

/-- The operations that look up a key, and what they answer if it is absent. -/
inductive Misses (key : K) : Op K → Res K V E → Prop
  | get (owning : Bool) : Misses key (.get key owning) (.got none)
  | containsKey : Misses key (.containsKey key) (.contains false)
  | remove : Misses key (.remove key) (.removed false)

/-- Where a call that looks up an absent key may stand, with an upper bound for the accesses it
still makes. Between its increment and its decrement a `get` has changed one word.
-/
inductive Missing (s₀ : Sys T K V E) (t : T) (key : K) : Res K V E → Nat → Sys T K V E → Prop
  | done {s} (res : Res K V E) (about : s.pc t = .ret res) (same : s₀.Undisturbed s)
    : Missing s₀ t key res 0 s
  | containsLen {s} (about : s.pc t = .containsLen key) (same : s₀.Undisturbed s)
    : Missing s₀ t key (.contains false) 3 s
  | containsWait {s} (about : s.pc t = .waitForChunk (KeyData.idx key) (.containsVersion key))
    (within : KeyData.idx key < s₀.len) (same : s₀.Undisturbed s)
    : Missing s₀ t key (.contains false) 2 s
  | containsVersion {s} (about : s.pc t = .containsVersion key) (same : s₀.Undisturbed s)
    : Missing s₀ t key (.contains false) 1 s
  | removeLen {s} (about : s.pc t = .removeLen key) (same : s₀.Undisturbed s)
    : Missing s₀ t key (.removed false) 3 s
  | removeWait {s} (about : s.pc t = .waitForChunk (KeyData.idx key) (.removeVersion key))
    (within : KeyData.idx key < s₀.len) (same : s₀.Undisturbed s)
    : Missing s₀ t key (.removed false) 2 s
  | removeVersion {s} (about : s.pc t = .removeVersion key) (same : s₀.Undisturbed s)
    : Missing s₀ t key (.removed false) 1 s
  | getLen {s} (owning : Bool) (about : s.pc t = .getLen key (.get owning))
    (same : s₀.Undisturbed s)
    : Missing s₀ t key (.got none) 6 s
  | getWait {s} (owning : Bool)
    (about : s.pc t = .waitForChunk (KeyData.idx key) (.acquireLoad key (.get owning)))
    (within : KeyData.idx key < s₀.len) (same : s₀.Undisturbed s)
    : Missing s₀ t key (.got none) 5 s
  | acquireLoad {s} (owning : Bool) (about : s.pc t = .acquireLoad key (.get owning))
    (same : s₀.Undisturbed s)
    : Missing s₀ t key (.got none) 4 s
  | acquireCas {s} (owning : Bool)
    (about
      : s.pc t = .acquireCas key (.get owning) (s₀.slots (KeyData.idx key)).refCount)
    (positive : 0 < (s₀.slots (KeyData.idx key)).refCount) (same : s₀.Undisturbed s)
    : Missing s₀ t key (.got none) 3 s
  | acquireVersion {s} (owning : Bool) (about : s.pc t = .acquireVersion key (.get owning))
    (positive : 0 < (s₀.slots (KeyData.idx key)).refCount)
    (raised : s₀.Keeps (Function.update s₀.slots (KeyData.idx key)
      {
        s₀.slots (KeyData.idx key) with
        refCount := (s₀.slots (KeyData.idx key)).refCount + 1
      }) s)
    : Missing s₀ t key (.got none) 2 s
  | acquireDec {s} (owning : Bool) (about : s.pc t = .acquireDec key (.get owning))
    (positive : 0 < (s₀.slots (KeyData.idx key)).refCount)
    (raised : s₀.Keeps (Function.update s₀.slots (KeyData.idx key)
      {
        s₀.slots (KeyData.idx key) with
        refCount := (s₀.slots (KeyData.idx key)).refCount + 1
      }) s)
    : Missing s₀ t key (.got none) 1 s

section

variable [DecidableEq T] [Fintype T] {dbg : Bool} {s₀ s s' : Sys T K V E} {t : T} {key : K}
  {res : Res K V E} {rank : Nat} {choice : Choice K V E}

omit [Key K] [DecidableEq T] [Fintype T] in
/-- The free list is that of the words. -/
theorem Undisturbed.freeList (same : s₀.Undisturbed s) (free : List Nat)
    : s.FreeList free ↔ s₀.FreeList free := by
  rw [FreeList, same.slots, same.freeHead, FreeList]

omit [Key K] [Fintype T] in
/-- An answer ends the lookup. -/
theorem Missing.answered [Key K] (same : s₀.Undisturbed s) (res : Res K V E)
    : Missing s₀ t key res 0 ((s.answer t res).goto t (.ret res)) :=
  .done res (pc_goto_self _ t _) ((same.answer res).goto _)

omit [Fintype T] in
/-- The loop of `acquire_guard` answers or goes on to its exchange. -/
theorem Missing.acquireLoop (same : s₀.Undisturbed s) (owning : Bool)
    (bounded : (s₀.slots (KeyData.idx key)).refCount ≤ MAX_REFCOUNT)
    : ∃ rank ≤ 3, Missing s₀ t key (.got none) rank
        (s.acquireLoop t key (.get owning) (s₀.slots (KeyData.idx key)).refCount) := by
  rw [Sys.acquireLoop, if_neg (by omega)]
  by_cases zero : (s₀.slots (KeyData.idx key)).refCount = 0
  · rw [if_pos zero]
    exact ⟨0, by omega, .answered same _⟩
  · rw [if_neg zero]
    exact ⟨3, by omega, .acquireCas owning (pc_goto_self _ t _) (Nat.pos_of_ne_zero zero)
      (same.goto _)⟩

omit [Fintype T] in
/-- The count that was raised is lowered to what it was, and nobody drops the value. -/
theorem Keeps.lowered (raised : s₀.Keeps (Function.update s₀.slots (KeyData.idx key)
      {
        s₀.slots (KeyData.idx key) with
        refCount := (s₀.slots (KeyData.idx key)).refCount + 1
      }) s)
    (positive : 0 < (s₀.slots (KeyData.idx key)).refCount)
    (bounded : (s₀.slots (KeyData.idx key)).refCount ≤ MAX_REFCOUNT) (needsDrop : Pc K V E)
    : Missing s₀ t key (.got none) 0
        (s.decRefCount t (KeyData.idx key) needsDrop (.ret (.got none))) := by
  have slot : s.slots (KeyData.idx key) = {
      s₀.slots (KeyData.idx key) with
      refCount := (s₀.slots (KeyData.idx key)).refCount + 1
    } := by
    rw [raised.slots, Function.update_self]
  have count : wrappingSub (s.slots (KeyData.idx key)).refCount 1
      = (s₀.slots (KeyData.idx key)).refCount := by
    have small : (s₀.slots (KeyData.idx key)).refCount + 1 < 2 ^ 32 := by
      simp only [MAX_REFCOUNT] at bounded
      omega
    rw [slot]
    exact wrappingSub_one (Nat.succ_pos _) small
  have more : (s.slots (KeyData.idx key)).refCount ≠ 1 := by
    rw [slot]
    change _ + 1 ≠ 1
    omega
  rw [decRefCount, count, slot]
  rw [slot] at more
  rw [if_neg more]
  refine .done _ (pc_goto_self _ t _) ?_
  refine ⟨?_, raised.chunks, raised.len, raised.freeHead, raised.numElems, raised.guards, ?_⟩
  · change Function.update s.slots (KeyData.idx key) (s₀.slots (KeyData.idx key)) = s₀.slots
    rw [raised.slots, Function.update_idem, Function.update_eq_self]
  · intro actor idx data
    rw [← raised.dropped]
    exact ⟨fun member => (List.mem_cons.mp member).resolve_left (by simp), List.mem_cons_of_mem _⟩

/-- A step of a lookup keeps to its way, by cases on where it stands. The raised count is not
one, so nobody drops the value, and it is lowered to what it was.
-/
theorem Missing.turn (missing : Missing s₀ t key res rank s)
    (stale : (s₀.slots (KeyData.idx key)).version ≠ KeyData.version key)
    (bounded : (s₀.slots (KeyData.idx key)).refCount ≤ MAX_REFCOUNT)
    (running : (s.pc t).paused = false) (found : step dbg s t choice = some s')
    : ∃ rank', Missing s₀ t key res rank' s'
        ∧ (choice = .go →
            (KeyData.idx key < s₀.len → (s₀.chunks (chunkOf (KeyData.idx key))).isSome) →
            rank' < rank) := by
  have waiting (next : Pc K V E) (rank : Nat) (within : KeyData.idx key < s₀.len)
      (about : s.pc t = .waitForChunk (KeyData.idx key) next) (same : s₀.Undisturbed s)
      (here : Missing s₀ t key res (rank + 1) s)
      (there : Missing s₀ t key res rank (s.goto t next)) :
      ∃ rank', Missing s₀ t key res rank' s'
        ∧ (choice = .go →
            (KeyData.idx key < s₀.len → (s₀.chunks (chunkOf (KeyData.idx key))).isSome) →
            rank' < rank + 1) := by
    rcases step_wait about found with ⟨_, rfl⟩ | ⟨absent, rfl⟩
    · exact ⟨rank, there, fun _ _ => Nat.lt_succ_self _⟩
    · refine ⟨rank + 1, here, fun _ housed => ?_⟩
      rw [same.chunks] at absent
      exact absurd (housed within) absent
  have looking (answer : Res K V E) (next : Pc K V E) (rank : Nat) (same : s₀.Undisturbed s)
      (lookup
        : choice.onGo (if s.len ≤ KeyData.idx key then (s.answer t answer).goto t (.ret answer)
            else s.goto t (.waitForChunk (KeyData.idx key) next)) = some s')
      (is : res = answer)
      (there : KeyData.idx key < s₀.len →
        Missing s₀ t key res (rank + 1) (s.goto t (.waitForChunk (KeyData.idx key) next))) :
      ∃ rank', Missing s₀ t key res rank' s'
        ∧ (choice = .go →
            (KeyData.idx key < s₀.len → (s₀.chunks (chunkOf (KeyData.idx key))).isSome) →
            rank' < rank + 2) := by
    subst is
    have reached := Choice.eq_of_onGo lookup
    split at reached
    · subst s'
      exact ⟨0, .answered same res, fun _ _ => by omega⟩
    · next within =>
      subst s'
      rw [same.len] at within
      exact ⟨rank + 1, there (by omega), fun _ _ => by omega⟩
  cases missing with
  | done res about same =>
      rw [about] at running
      cases running
  | containsLen about same =>
      simp only [step, about] at found
      exact looking _ _ 1 same found rfl fun within =>
        .containsWait (pc_goto_self _ t _) within (same.goto _)
  | containsWait about within same =>
      exact waiting _ 1 within about same (.containsWait about within same)
        (.containsVersion (pc_goto_self _ t _) (same.goto _))
  | containsVersion about same =>
      simp only [step, about] at found
      have absent : ((s.slots (KeyData.idx key)).version == KeyData.version key) = false := by
        rw [same.slots]
        exact beq_eq_false_iff_ne.mpr stale
      rw [absent] at found
      cases Choice.eq_of_onGo found
      exact ⟨0, .answered same _, fun _ _ => by omega⟩
  | removeLen about same =>
      simp only [step, about] at found
      exact looking _ _ 1 same found rfl fun within =>
        .removeWait (pc_goto_self _ t _) within (same.goto _)
  | removeWait about within same =>
      exact waiting _ 1 within about same (.removeWait about within same)
        (.removeVersion (pc_goto_self _ t _) (same.goto _))
  | removeVersion about same =>
      simp only [step, about, removeLoop, same.slots, if_pos stale] at found
      cases Choice.eq_of_onGo found
      exact ⟨0, .answered same _, fun _ _ => by omega⟩
  | getLen owning about same =>
      simp only [step, about] at found
      exact looking _ _ 4 same found rfl fun within =>
        .getWait owning (pc_goto_self _ t _) within (same.goto _)
  | getWait owning about within same =>
      exact waiting _ 4 within about same (.getWait owning about within same)
        (.acquireLoad owning (pc_goto_self _ t _) (same.goto _))
  | acquireLoad owning about same =>
      simp only [step, about, same.slots] at found
      cases Choice.eq_of_onGo found
      obtain ⟨rank, less, there⟩ := Missing.acquireLoop same owning bounded
      exact ⟨rank, there, fun _ _ => by omega⟩
  | acquireCas owning about positive same =>
      simp only [step, about, same.slots, BEq.rfl] at found
      cases choice with
      | go =>
          cases found
          refine ⟨2, .acquireVersion owning (pc_goto_self _ t _) positive ?_, fun _ _ => by omega⟩
          exact ⟨congrArg (Function.update · _ _) same.slots, same.chunks, same.len,
            same.freeHead, same.numElems, same.guards, same.dropped⟩
      | spurious =>
          cases found
          obtain ⟨rank, _, there⟩ := Missing.acquireLoop same owning bounded
          exact ⟨rank, there, fun going => by cases going⟩
      | _ => cases found
  | acquireVersion owning about positive raised =>
      simp only [step, about] at found
      cases Choice.eq_of_onGo found
      have version : (s.slots (KeyData.idx key)).version ≠ KeyData.version key := by
        rw [raised.slots, Function.update_self]
        exact stale
      simp only [acquireCheck, if_neg version]
      refine ⟨1, .acquireDec owning (pc_goto_self _ t _) positive ?_, fun _ _ => by omega⟩
      exact (raised.answer _).goto _
  | acquireDec owning about positive raised =>
      simp only [step, about] at found
      cases Choice.eq_of_onGo found
      exact ⟨0, raised.lowered positive bounded _, fun _ _ => by omega⟩

/-- A lookup starts on its way. -/
theorem Misses.called (dbg : Bool) {op : Op K} (misses : Misses key op res) (rests : s.pc t = .idle)
    : ∃ called rank, step dbg s t (.call op) = some called ∧ Missing s t key res rank called := by
  have same (op : Op K) (pc : Pc K V E) : s.Undisturbed ((s.begin t op).goto t pc) :=
    ((Undisturbed.refl s).begin op).goto pc
  cases misses with
  | get owning =>
      refine ⟨_, 6, ?_, .getLen owning (pc_goto_self _ t _) (same (.get key owning) _)⟩
      simp only [step, rests]
      rfl
  | containsKey =>
      refine ⟨_, 3, ?_, .containsLen (pc_goto_self _ t _) (same (.containsKey key) _)⟩
      simp only [step, rests]
      rfl
  | remove =>
      refine ⟨_, 3, ?_, .removeLen (pc_goto_self _ t _) (same (.remove key) _)⟩
      simp only [step, rests]
      rfl

/-- A lookup of an absent key has these stages. -/
theorem Missing.outline (stale : (s₀.slots (KeyData.idx key)).version ≠ KeyData.version key)
    (bounded : (s₀.slots (KeyData.idx key)).refCount ≤ MAX_REFCOUNT)
    : Outline dbg t
        (KeyData.idx key < s₀.len → (s₀.chunks (chunkOf (KeyData.idx key))).isSome)
        (Missing s₀ t key res) where
  running := by
    intro rank s missing
    cases missing with
    | containsLen about | containsWait about | containsVersion about | removeLen about
    | removeWait about | removeVersion about | getLen _ about | getWait _ about
    | acquireLoad _ about | acquireCas _ about | acquireVersion _ about | acquireDec _ about =>
        rw [about]
        rfl
  turn := fun _ _ _ _ missing running _ found => missing.turn stale bounded running found

omit [DecidableEq T] [Fintype T] in
/-- The last stage is the answer. -/
theorem Missing.answers (missing : Missing s₀ t key res 0 s)
    : s.pc t = .ret res ∧ s₀.Undisturbed s := by
  cases missing with
  | done res about same => exact ⟨about, same⟩

end

end Sys

-----------------------------------------------------------------------------------------
-- Lookups of a single thread
-----------------------------------------------------------------------------------------

/-- Whether a lookup has raised a reference count without getting a guard for it. -/
def Pc.raised : Pc K V E → Bool
  | .waitForChunk _ next | .assertRefCount _ next | .assertVersion _ next => next.raised
  | .acquireVersion _ _ | .acquireDec _ _ | .dropValue _ (.missed _) => true
  | _ => false

section

variable {dbg : Bool} {s : Sys T K V E} {pc pc' : Pc K V E}

attribute [local simp] Pc.raised

omit [Key K] in
@[simp] theorem Pc.raised_exclusivelyOwned (idx : Nat) (next : Pc K V E)
    : (Pc.exclusivelyOwned dbg idx next).raised = next.raised := by
  cases dbg <;> rfl

omit [Key K] in
@[simp] theorem Pc.raised_pushFreeIndex (idx : Nat) (after : AfterPush K E)
    : (Pc.pushFreeIndex dbg idx after : Pc K V E).raised = false := by
  cases dbg <;> rfl

omit [Key K] in
@[simp] theorem Pc.raised_popLoop (head updates : Nat)
    : (Pc.popLoop head updates : Pc K V E).raised = false := by
  rw [Pc.popLoop]
  split <;> rfl

omit [Key K] in
@[simp] theorem Getter.raised_missed (getter : Getter)
    : (getter.missed : Pc K V E).raised = false := by
  cases getter <;> rfl

omit [Key K] in
@[simp] theorem AfterPush.raised_resume (after : AfterPush K E)
    : (after.resume : Pc K V E).raised = false := by
  cases after <;> simp [AfterPush.resume, Pc.raised]

omit [Key K] in
@[simp] theorem AfterEnsure.raised_resume (after : AfterEnsure)
    : (after.resume : Pc K V E).raised = false := by
  cases after with
  | pushed idx => rfl
  | reserving chunk maxChunk =>
      simp only [AfterEnsure.resume]
      split <;> rfl

omit [Key K] in
@[simp] theorem Res.raised_rest (res : Res K V E) : res.rest.raised = false := by
  cases res <;> rfl

theorem Pc.Goes.raised (goes : pc.Goes dbg s pc') (raised : pc'.raised = true)
    : pc.raised = true := by
  cases goes with
  | arrived | unreferenced | unoccupied => exact raised
  | acquireStale => rfl
  | _ => simp [Pc.raised] at raised

theorem Pc.Answers.raised {res : Res K V E} (answers : pc.Answers dbg s res pc')
    (raised : pc'.raised = true)
    : pc.raised = true := by
  cases answers with
  | acquireStale => rfl
  | _ => simp [Pc.raised] at raised

theorem Op.Starts.raised {op : Op K} (starts : op.Starts s pc) : pc.raised = false := by
  cases starts <;> rfl

/-- Only a lookup that raised a count drops a value as one, by cases on the decrement. -/
theorem Pc.Decrements.raised {needsDrop otherwise : Pc K V E} {idx : Nat}
    (decrements : pc.Decrements idx needsDrop otherwise)
    : (needsDrop.raised = true → pc.raised = true) ∧ otherwise.raised = false := by
  cases decrements <;> simp [Pc.raised]

end

namespace Sys

section

variable [DecidableEq T] {dbg : Bool} {s s' : Sys T K V E} {t : T} {pc : Pc K V E}

omit [DecidableEq T] in
/-- A lookup raises a count by its exchange, by cases on where a step leads. -/
theorem Leads.raised (leads : s.Leads dbg t pc) (raised : pc.raised = true)
    : (s.pc t).raised = true ∨ ∃ key getter refcount, s.pc t = .acquireCas key getter refcount := by
  cases leads with
  | stay => exact Or.inl raised
  | go pc goes => exact Or.inl (goes.raised raised)
  | answered res pc answers => exact Or.inl (answers.raised raised)
  | released idx needsDrop otherwise decrements => exact Or.inl (decrements.raised.1 raised)
  | acquired key getter refcount about => exact Or.inr ⟨key, getter, refcount, about⟩
  | gaveUp idx needsDrop otherwise decrements =>
      rw [decrements.raised.2] at raised
      cases raised
  | began op pc calls starts =>
      rw [starts.raised] at raised
      cases raised
  | _ => simp [Pc.raised] at raised

variable [Fintype T]

/-- A lookup with a raised count is about to check the version or to lower the count, and the
slot has another reference.
-/
def Raised (s : Sys T K V E) (t : T) : Prop :=
  ∃ key getter,
    (s.pc t = .acquireVersion key getter ∨ s.pc t = .acquireDec key getter)
    ∧ 2 ≤ (s.slots (KeyData.idx key)).refCount

/-- The exchange of a lookup finds a reference and adds one. -/
theorem Raised.of_exchange {key : K} {getter : Getter} {refcount : Nat} {choice : Choice K V E}
    (about : s.pc t = .acquireCas key getter refcount) (fits : (s.pc t).Fits s)
    (found : step dbg s t choice = some s') (raised : (s'.pc t).raised = true)
    : s'.Raised t := by
  rw [about] at fits
  simp only [step, about] at found
  rcases Choice.eq_of_onWeak found with ⟨_, rfl⟩ | rfl
  · refine ⟨key, getter, Or.inl (pc_goto_self _ t _), ?_⟩
    change 2 ≤ (Function.update s.slots (KeyData.idx key) _ (KeyData.idx key)).refCount
    rw [Function.update_self]
    exact Nat.succ_le_succ fits.1
  · revert raised
    rw [acquireLoop]
    split
    · simp [Pc.raised]
    · split <;> simp [Pc.raised]

/-- A lookup with a raised count keeps it until it gives it back, which drops nothing. -/
theorem Raised.turn {choice : Choice K V E} (before : s.Raised t)
    (found : step dbg s t choice = some s') (raised : (s'.pc t).raised = true)
    : s'.Raised t := by
  obtain ⟨key, getter, about | about, more⟩ := before
  · simp only [step, about] at found
    cases Choice.eq_of_onGo found
    revert raised
    rw [acquireCheck]
    dsimp only
    split
    · simp [Pc.raised]
    · refine fun _ => ⟨key, getter, Or.inr (pc_goto_self _ t _), ?_⟩
      cases getter with
      | get owning =>
          simp only [miss]
          rw [answer_eq]
          exact more
      | next currentIdx => exact more
  · simp only [step, about] at found
    cases Choice.eq_of_onGo found
    revert raised
    rw [decRefCount, if_neg (by omega)]
    simp

/-- On a single thread nobody gives up a reference while a lookup has one, by induction on the
run.
-/
theorem Solo.raised (solo : Solo dbg s) (t : T) (raised : (s.pc t).raised = true)
    : s.Raised t := by
  induction solo with
  | refl => cases raised
  | @tail s s' earlier last ih =>
      obtain ⟨actor, choice, within, alone, found, _⟩ := last
      by_cases self : t = actor
      · subst actor
        obtain ⟨free, inv⟩ := (Solo.calm earlier).reachable.inv
        rcases (step_moves found).leads.raised raised with before | ⟨key, getter, refcount, about⟩
        · exact (ih before).turn found raised
        · exact .of_exchange about (inv.fits t) found raised
      · have resting := alone t self
        rw [(step_moves found).others t self] at raised
        obtain ⟨key, getter, about | about, _⟩ := ih raised
        · rw [about] at resting
          cases resting
        · rw [about] at resting
          cases resting

end

end Sys

-----------------------------------------------------------------------------------------
-- Absent keys
-----------------------------------------------------------------------------------------

open Sys in
/-- In every state of a single thread no lookup is about to drop a value, whichever activity makes
it. If the thread rests there and no reference count is saturated, a call of `get`, `get_owning`,
`contains_key` or `remove` with a key that is not bound can only end by finding nothing, with the
map as before; and if no allocation has failed it does end, as soon as its weak exchanges do not
fail spuriously.
-/
theorem absent_key_undisturbed [DecidableEq T] [Fintype T] {dbg : Bool} {s : Sys T K V E}
    (solo : Solo dbg s)
    : (∀ t, s.pc t = .idle → s.Alone t → (∀ idx, (s.slots idx).refCount ≤ MAX_REFCOUNT) →
        ∀ key : K, s.bound (KeyData.place key) = none → ∀ op res, Misses key op res →
          (∀ s', Ends dbg t (.call op) s s' →
            s'.pc t = .ret res
            ∧ s.Undisturbed s'
            ∧ ∀ free, s'.FreeList free ↔ s.FreeList free)
          ∧ (Relation.ReflTransGen (SuppliedStep dbg) (.withKey T K V E) s →
              ∃ called, step dbg s t (.call op) = some called
                ∧ Library.Eventually (GoTurn dbg t)
                    (fun s' => s'.pc t = .ret res ∧ s.Undisturbed s') called))
      ∧ ∀ u idx getter, s.pc u ≠ .dropValue idx (.missed getter) := by
  obtain ⟨free, inv⟩ := solo.calm.reachable.inv
  refine ⟨fun t rests alone counts key absent op res misses => ?_, fun u idx getter about => ?_⟩
  · have stale : (s.slots (KeyData.idx key)).version ≠ KeyData.version key := by
      intro current
      obtain ⟨stored, _, present⟩ := inv.bound_of_current current
      rw [absent] at present
      cases present
    have outline : Outline dbg t _ (Missing s t key res) := Missing.outline stale (counts _)
    obtain ⟨called, rank, found, missing⟩ := misses.called dbg rests
    refine ⟨fun s' ends => ?_, fun run => ⟨called, found, ?_⟩⟩
    · obtain ⟨_, found', turns, paused⟩ := ends
      cases found.symm.trans found'
      obtain ⟨answered, same⟩ := (outline.final missing turns paused).answers
      exact ⟨answered, same, same.freeList⟩
    · refine (outline.eventually (fun within => ?_) missing).mono fun _ => Missing.answers
      exact housed_of_alone run (by rw [rests]; rfl) alone within
  · obtain ⟨key, getter, checking | lowering, _⟩ := solo.raised u (by rw [about]; rfl)
    · rw [about] at checking
      cases checking
    · rw [about] at lowering
      cases lowering

/-- A single thread inserts a value, takes a guard on it and removes its key. -/
def insertGetRemove : List (Unit × Choice UInt64 Nat Empty) :=
  Sys.turns () (
    [.call .tryInsertWithKey, .go, .go, .go, .go, .go, .closureOk 7] ++ List.replicate 6 .go
    ++ .call (.get ((1 : UInt64) <<< 32) false) :: List.replicate 6 .go
    ++ .call (.remove ((1 : UInt64) <<< 32)) :: List.replicate 7 .go)

open Sys in
/-- After that run the slot is pinned by the guard, and a `get` with its key finds nothing. -/
theorem absent_key_undisturbed_insertGetRemove
    : ∃ s : Sys Unit UInt64 Nat Empty,
        s.guards.length = 1
        ∧ (s.slots 0).refCount = 1
        ∧ (∀ s', Ends false () (.call (.get ((1 : UInt64) <<< 32) false)) s s' →
            s'.pc () = .ret (.got none) ∧ s.Undisturbed s')
        ∧ ∃ called, step false s () (.call (.get ((1 : UInt64) <<< 32) false)) = some called
          ∧ Library.Eventually (GoTurn false ())
              (fun s' => s'.pc () = .ret (.got none) ∧ s.Undisturbed s') called := by
  have found : (Sys.runIf (fun s t => s.within? t && decide (s.Alone t) && s.calm?) false
      (.withKey Unit UInt64 Nat Empty) insertGetRemove).map
      (fun s => (s.calm?, (s.pc ()).idle?, s.guards.length, s.len, (s.slots 0).refCount,
        (s.bound (KeyData.place ((1 : UInt64) <<< 32))).isNone))
      = some (true, true, 1, 1, 1, true) := by decide +kernel
  obtain ⟨s, reached, after⟩ := Option.map_eq_some_iff.mp found
  simp only [Prod.mk.injEq] at after
  obtain ⟨calm, idle, guarded, len, count, absent⟩ := after
  have solo : Solo false s := .of_run reached calm
  obtain ⟨free, inv⟩ := solo.calm.reachable.inv
  have counts (idx : Nat) : (s.slots idx).refCount ≤ MAX_REFCOUNT := by
    rcases Nat.eq_zero_or_pos idx with rfl | positive
    · rw [count]
      decide
    · have fits := inv.owned.slots idx
      have beyond : s.len ≤ idx := by omega
      rw [(inv.owned.born idx).mpr beyond] at fits
      rw [show (s.slots idx).refCount = 0 from fits.2.1]
      exact Nat.zero_le _
  obtain ⟨ends, eventually⟩ :=
    (absent_key_undisturbed solo).1 () (Pc.eq_idle idle) (fun _ apart => absurd rfl apart) counts
      _ (Option.isNone_iff_eq_none.mp absent) _ _ (.get false)
  refine ⟨s, guarded, count, fun s' ended => ?_, ?_⟩
  · obtain ⟨answered, same, _⟩ := ends s' ended
    exact ⟨answered, same⟩
  · exact eventually (supplied_of_runIf reached rfl)

end AtomicSlotMap
