import AtomicSlotMap.Implementation.Turns
import AtomicSlotMap.Library.Amortized
import AtomicSlotMap.Library.Counting

/-! What the accesses of a call cost, whatever the other activities do meanwhile. A call has a bill
for what it may still have to do. An update of a word that others have loaded makes them repeat
what they did with it, and a new index is one more to visit for those who traverse the map; the
activity that does either pays for it.
-/

namespace AtomicSlotMap

variable {T K V E : Type} [Key K]

/-- What an activity is charged for the others: for each update of the free list or of a reference
count, and for each new index.
-/
structure Rates where
  update : Nat
  push : Nat

/-- What a traversal is charged for each index that it may still visit. -/
def Rates.visit (rates : Rates) : Nat := 3 * rates.update + 17

variable (rates : Rates) (len : Nat)

def Getter.cost : Getter → Nat
  | .get _ => 0
  | .next currentIdx => (len - currentIdx) * rates.visit + 1

def AfterPush.cost : AfterPush K E → Nat
  | .failed _ | .unguarded => 0
  | .removed _ => 1
  | .missed getter => getter.cost rates len

def AfterEnsure.cost : AfterEnsure → Nat
  | .pushed _ => rates.update + 7
  | .reserving chunk maxChunk => (maxChunk - chunk) * 5

/-- A bound for what a call is still charged if no exchange of it fails, in a vector of this
length: one for each access, and what its updates cost.
-/
def Pc.cost : Pc K V E → Nat
  | .idle | .iterating _ | .ret _ | .unwinding => 0
  | .waitForChunk _ next | .assertRefCount _ next | .assertVersion _ next => next.cost + 1
  | .popLoad => 2 * rates.update + rates.push + 15
  | .popNext _ _ => 2 * rates.update + rates.push + 13
  | .popCas _ _ _ => 2 * rates.update + rates.push + 12
  | .pushZeroed => rates.update + rates.push + 12
  | .insertVersion _ => rates.update + 8
  | .closure _ _ => rates.update + 7
  | .insertWrite _ _ _ => rates.update + 4
  | .insertRefCount _ _ _ => rates.update + 3
  | .insertPublish _ _ _ => 2
  | .insertCount _ _ => 1
  | .ensureLoad _ after => after.cost rates + 4
  | .ensureAlloc _ after => after.cost rates + 3
  | .ensureCas _ _ after => after.cost rates + 2
  | .ensureDealloc _ after => after.cost rates + 1
  | .pushLoad _ after => after.cost rates len + rates.update + 3
  | .pushStore _ _ after => after.cost rates len + rates.update + 2
  | .pushCas _ _ after => after.cost rates len + rates.update + 1
  | .dropValue _ after => after.cost rates len + rates.update + 7
  | .removeLen _ => 2 * rates.update + 13
  | .removeVersion _ => 2 * rates.update + 11
  | .removeCas key current =>
      2 * rates.update + if current = KeyData.version key then 10 else 11
  | .removeDec _ => 2 * rates.update + 9
  | .removeCount _ => 1
  | .getLen _ getter => getter.cost rates len + 3 * rates.update + 13
  | .acquireLoad _ getter => getter.cost rates len + 3 * rates.update + 11
  | .acquireCas _ getter _ => getter.cost rates len + 3 * rates.update + 10
  | .acquireVersion _ getter => getter.cost rates len + 2 * rates.update + 9
  | .acquireDec _ getter => getter.cost rates len + 2 * rates.update + 8
  | .containsLen _ => 3
  | .containsVersion _ => 1
  | .nextLen currentIdx => (len - currentIdx) * rates.visit + 1
  | .nextGet idx => (len - (idx + 1)) * rates.visit + 3 * rates.update + 17
  | .nextVersion idx => (len - (idx + 1)) * rates.visit + 3 * rates.update + 15
  | .unguardDec _ => 2 * rates.update + 9
  | .cloneInc _ => rates.update + 1
  | .lenLoad | .isEmptyLoad => 1
  | .capacityLoad chunk _ => CHUNKS - chunk + 1
  | .reserveLen _ => CHUNKS * 5 + 2
  | .reserveSlots _ => CHUNKS * 5 + 1
  | .vecReserve _ => CHUNKS * 5

/-- What a call is charged when it starts. -/
def Op.fee : Op K → Nat
  | .tryInsertWithKey => 2 * rates.update + rates.push + 15
  | .remove _ => 2 * rates.update + 13
  | .get _ _ => 3 * rates.update + 13
  | .containsKey _ => 3
  | .next currentIdx => (len - currentIdx) * rates.visit + 1
  | .dropGuard _ => 2 * rates.update + 10
  | .cloneGuard _ => rates.update + 2
  | .forgetGuard _ | .derefGuard _ => 0
  | .lossyLen | .lossyIsEmpty => 1
  | .reserve _ => CHUNKS * 5 + 2
  | .capacity => CHUNKS + 1

/-- Whether an activity has loaded a word that has changed since and that it will exchange. -/
def Pc.stale (s : Sys T K V E) : Pc K V E → Bool
  | .waitForChunk _ next | .assertRefCount _ next | .assertVersion _ next => next.stale s
  | .popNext old _ | .popCas old _ _ | .pushStore _ old _ | .pushCas _ old _ =>
      old != s.freeHead
  | .acquireCas key _ refcount => refcount != (s.slots (KeyData.idx key)).refCount
  | _ => false

/-- What each of the others may be charged for an access: an update of the free list or of a reference
count makes it repeat what it did with the word, and a new index is one more to visit.
-/
def Pc.hindrance : Pc K V E → Nat
  | .popCas _ _ _ | .pushCas _ _ _ | .insertRefCount _ _ _ | .removeDec _ | .acquireCas _ _ _
  | .acquireDec _ _ | .unguardDec _ | .cloneInc _ => 3
  | .pushZeroed => rates.visit
  | _ => 0

/-- Whether an activity is about to make a weak exchange. -/
def Pc.exchanges : Pc K V E → Bool
  | .popCas _ _ _ | .pushCas _ _ _ | .acquireCas _ _ _ => true
  | _ => false

/-- Whether a weak exchange is to fail spuriously. -/
def Choice.isSpurious : Choice K V E → Bool
  | .spurious => true
  | _ => false

namespace Sys

/-- What is left on the bill of an activity: a repetition is charged at most three. -/
def bill (s : Sys T K V E) (t : T) : Nat :=
  (s.pc t).cost rates s.len + if (s.pc t).stale s then 3 else 0

/-- Whether an activity spins for a chunk that is missing. -/
def spins (s : Sys T K V E) (t : T) : Bool :=
  match s.pc t with
  | .waitForChunk idx _ => (s.chunks (chunkOf idx)).isNone
  | _ => false

/-- One for each access within a call, but not for a turn of the spin loop or an exchange that fails
spuriously.
-/
def work (s : Sys T K V E) (label : T × Choice K V E) : Nat :=
  if (s.pc label.1).paused || s.spins label.1 || label.2.isSpurious then 0 else 1

/-- What a step adds to the bills. -/
def fee (s : Sys T K V E) (label : T × Choice K V E) : Nat :=
  match label.2 with
  | .call op => op.fee rates s.len
  | .spurious => 3
  | _ => 0

/-- The words that make a bill grow are as before. -/
structure SameWords (s s' : Sys T K V E) : Prop where
  freeHead : s'.freeHead = s.freeHead
  counts : ∀ idx, (s'.slots idx).refCount = (s.slots idx).refCount
  len : s'.len = s.len

end Sys

section

variable {rates : Rates} {len : Nat} {dbg : Bool} {s s' : Sys T K V E}

attribute [local simp] Pc.cost Pc.stale

@[simp] theorem Getter.cost_missed (getter : Getter)
    : (getter.missed : Pc K V E).cost rates len = getter.cost rates len := by
  cases getter <;> rfl

@[simp] theorem AfterPush.cost_resume (after : AfterPush K E)
    : (after.resume : Pc K V E).cost rates len = after.cost rates len := by
  cases after with
  | missed getter => exact getter.cost_missed
  | _ => rfl

theorem AfterEnsure.cost_resume (after : AfterEnsure)
    : (after.resume : Pc K V E).cost rates len ≤ after.cost rates := by
  cases after with
  | pushed idx => exact Nat.le_refl _
  | reserving chunk maxChunk =>
      simp only [AfterEnsure.resume, AfterEnsure.cost]
      split
      · simp only [Pc.cost, AfterEnsure.cost]
        omega
      · exact Nat.zero_le _

theorem Pc.cost_exclusivelyOwned (idx : Nat) (next : Pc K V E)
    : (Pc.exclusivelyOwned dbg idx next).cost rates len ≤ next.cost rates len + 2 := by
  cases dbg
  · exact Nat.le_add_right _ 2
  · exact Nat.le_refl _

theorem Pc.cost_pushFreeIndex (idx : Nat) (after : AfterPush K E)
    : (Pc.pushFreeIndex dbg idx after : Pc K V E).cost rates len
      ≤ after.cost rates len + rates.update + 6 :=
  Nat.succ_le_succ (Pc.cost_exclusivelyOwned idx (.pushLoad idx after))

theorem Pc.cost_popLoop (head updates : Nat)
    : (Pc.popLoop head updates : Pc K V E).cost rates len
      ≤ 2 * rates.update + rates.push + 14 := by
  rw [Pc.popLoop]
  split
  · simp only [Pc.cost]
    omega
  · exact Nat.le_refl _

@[simp] theorem Getter.stale_missed (getter : Getter)
    : (getter.missed : Pc K V E).stale s = false := by
  cases getter <;> rfl

@[simp] theorem AfterPush.stale_resume (after : AfterPush K E)
    : (after.resume : Pc K V E).stale s = false := by
  cases after with
  | missed getter => exact getter.stale_missed
  | _ => rfl

@[simp] theorem AfterEnsure.stale_resume (after : AfterEnsure)
    : (after.resume : Pc K V E).stale s = false := by
  cases after with
  | pushed idx => rfl
  | reserving chunk maxChunk =>
      simp only [AfterEnsure.resume]
      split <;> rfl

@[simp] theorem Pc.stale_exclusivelyOwned (idx : Nat) (next : Pc K V E)
    : (Pc.exclusivelyOwned dbg idx next).stale s = next.stale s := by
  cases dbg <;> rfl

@[simp] theorem Pc.stale_pushFreeIndex (idx : Nat) (after : AfterPush K E)
    : (Pc.pushFreeIndex dbg idx after : Pc K V E).stale s = false :=
  Pc.stale_exclusivelyOwned idx (.pushLoad idx after)

/-- A freshly loaded head word is up to date. -/
theorem Pc.stale_popLoop (updates : Nat)
    : (Pc.popLoop s.freeHead updates : Pc K V E).stale s = false := by
  rw [Pc.popLoop]
  split
  · rfl
  · exact bne_self_eq_false s.freeHead

@[simp] theorem Res.stale_rest (res : Res K V E) : res.rest.stale s = false := by
  cases res <;> rfl

@[simp] theorem Res.cost_rest (res : Res K V E) : res.rest.cost rates len = 0 := by
  cases res <;> rfl

/-- Only the words that were loaded matter, by induction on the waits. -/
theorem Pc.stale_congr {pc : Pc K V E} (freeHead : s'.freeHead = s.freeHead)
    (counts : ∀ idx, (s'.slots idx).refCount = (s.slots idx).refCount)
    : pc.stale s' = pc.stale s := by
  induction pc with
  | waitForChunk _ next ih | assertRefCount _ next ih | assertVersion _ next ih => exact ih
  | popNext | popCas | pushStore | pushCas => simp only [Pc.stale, freeHead]
  | acquireCas key _ _ => simp only [Pc.stale, counts]
  | _ => rfl

/-- A vector that grows by one index has one more to visit, by induction on the waits. -/
theorem Pc.cost_grow {pc : Pc K V E} {len' : Nat} (grown : len' ≤ len + 1)
    : pc.cost rates len' ≤ pc.cost rates len + rates.visit := by
  have visits (idx : Nat) : (len' - idx) * rates.visit ≤ (len - idx) * rates.visit + rates.visit := by
    rw [← Nat.succ_mul]
    exact Nat.mul_le_mul_right _ (by omega)
  have getting (getter : Getter) :
      getter.cost rates len' ≤ getter.cost rates len + rates.visit := by
    cases getter with
    | get owning => exact Nat.le_add_right _ _
    | next currentIdx =>
        have more := visits currentIdx
        simp only [Getter.cost]
        omega
  have pushing (after : AfterPush K E) :
      after.cost rates len' ≤ after.cost rates len + rates.visit := by
    cases after with
    | missed getter => exact getting getter
    | _ => exact Nat.le_add_right _ _
  induction pc with
  | waitForChunk _ next ih | assertRefCount _ next ih | assertVersion _ next ih =>
      simp only [Pc.cost]
      omega
  | pushLoad _ after | pushStore _ _ after | pushCas _ _ after | dropValue _ after =>
      have more := pushing after
      simp only [Pc.cost]
      omega
  | getLen _ getter | acquireLoad _ getter | acquireCas _ getter _ | acquireVersion _ getter
  | acquireDec _ getter =>
      have more := getting getter
      simp only [Pc.cost]
      omega
  | nextLen currentIdx =>
      have more := visits currentIdx
      simp only [Pc.cost]
      omega
  | nextGet idx | nextVersion idx =>
      have more := visits (idx + 1)
      simp only [Pc.cost]
      omega
  | _ => exact Nat.le_add_right _ _

/-- An access to one word brings a call forward, by cases on the move. A weak exchange may be
repeated instead, and a call that pauses has no access to make.
-/
theorem Pc.Goes.forward {pc pc' : Pc K V E} (goes : pc.Goes dbg s pc')
    (running : pc.paused = false) (firm : pc.exchanges = false)
    : 1 + pc'.cost rates s.len ≤ pc.cost rates s.len
      ∧ (pc'.stale s = false ∨ pc'.stale s = pc.stale s) := by
  cases goes with
  | iterate | endIterate | closureOk => cases running
  | popAgain | pushAgain | acquireAgain | acquireAgainZero => cases firm
  | arrived | unreferenced | unoccupied => exact ⟨Nat.le_of_eq (Nat.add_comm _ _), Or.inr rfl⟩
  | popLoad =>
      have loop
        : (Pc.popLoop s.freeHead s.updates : Pc K V E).cost rates s.len
          ≤ 2 * rates.update + rates.push + 14 := Pc.cost_popLoop s.freeHead s.updates
      refine ⟨?_, Or.inl (Pc.stale_popLoop _)⟩
      rw [Pc.cost]
      omega
  | popNext =>
      refine ⟨?_, Or.inr rfl⟩
      simp only [Pc.cost]
      omega
  | ensurePresent chunk after =>
      have resumed : (after.resume : Pc K V E).cost rates s.len ≤ after.cost rates :=
        after.cost_resume
      refine ⟨?_, Or.inl after.stale_resume⟩
      simp only [Pc.cost]
      omega
  | pushLoad | acquireLoad =>
      refine ⟨?_, Or.inl (bne_self_eq_false _)⟩
      simp only [Pc.cost]
      omega
  | removeCurrent =>
      refine ⟨?_, Or.inl rfl⟩
      simp only [Pc.cost, if_true]
      omega
  | removeAgain key current same apart =>
      have other : current ≠ KeyData.version key := fun here => apart (same.trans here.symm)
      refine ⟨?_, Or.inl rfl⟩
      simp only [Pc.cost, if_true, if_neg other]
      omega
  | nextWithin currentIdx within =>
      have visits
        : (s.len - currentIdx) * rates.visit
          = (s.len - (currentIdx + 1)) * rates.visit + rates.visit := by
        rw [← Nat.succ_mul]
        exact congrArg (· * rates.visit) (by omega)
      have visit : rates.visit = 3 * rates.update + 17 := rfl
      refine ⟨?_, Or.inl rfl⟩
      simp only [Pc.cost]
      omega
  | vecReserve additional targetCap sum positive small =>
      have few := chunkOf_lt small
      refine ⟨?_, Or.inl rfl⟩
      simp only [Pc.cost, AfterEnsure.cost, CHUNKS] at few ⊢
      omega
  | _ =>
      refine ⟨?_, Or.inl rfl⟩
      simp only [Pc.cost, Getter.cost, CHUNKS] at *
      omega

/-- So does an answer. -/
theorem Pc.Answers.forward {pc pc' : Pc K V E} {res : Res K V E}
    (answers : pc.Answers dbg s res pc') (running : pc.paused = false)
    (firm : pc.exchanges = false)
    : 1 + pc'.cost rates s.len ≤ pc.cost rates s.len ∧ pc'.stale s = false := by
  cases answers with
  | closureErr => cases running
  | acquireAgainZero => cases firm
  | removeAgainStale =>
      refine ⟨?_, rfl⟩
      simp only [Pc.cost]
      split <;> omega
  | _ =>
      refine ⟨?_, rfl⟩
      simp only [Pc.cost, Getter.cost]
      omega

/-- Giving up a reference brings a call forward by what it costs the others. -/
theorem Pc.Decrements.forward {pc needsDrop otherwise : Pc K V E} {idx : Nat}
    (decrements : pc.Decrements idx needsDrop otherwise) (rates : Rates) (s : Sys T K V E)
    : pc.hindrance rates = 3
      ∧ (1 + needsDrop.cost rates s.len + rates.update ≤ pc.cost rates s.len
        ∧ ∀ staged : Sys T K V E, needsDrop.stale staged = false)
      ∧ 1 + otherwise.cost rates s.len + rates.update ≤ pc.cost rates s.len
      ∧ ∀ staged : Sys T K V E, otherwise.stale staged = false := by
  cases decrements with
  | remove key =>
      refine ⟨rfl, ⟨?_, fun _ => rfl⟩, ?_, fun _ => rfl⟩
      · simp only [Pc.cost, AfterPush.cost]
        omega
      · simp only [Pc.cost]
        omega
  | acquire key getter =>
      refine ⟨rfl, ⟨?_, fun _ => rfl⟩, ?_, fun _ => getter.stale_missed⟩
      · simp only [Pc.cost, AfterPush.cost]
        omega
      · rw [Getter.cost_missed, Pc.cost]
        omega
  | unguard guard =>
      refine ⟨rfl, ⟨?_, fun _ => rfl⟩, ?_, fun _ => rfl⟩
      · simp only [Pc.cost, AfterPush.cost]
        omega
      · simp only [Pc.cost]
        omega

/-- Who may panic has something left on its bill. -/
theorem Pc.Fails.charged {pc : Pc K V E} (fails : pc.Fails dbg s)
    : 1 ≤ pc.cost rates s.len := by
  cases fails <;> simp only [Pc.cost, CHUNKS] <;> omega

end

-----------------------------------------------------------------------------------------
-- Every step is paid for
-----------------------------------------------------------------------------------------

namespace Sys

/-- A step is paid for by its fee and by the bill of the activity that makes it. Who changes a word
that others may have loaded, or makes the vector longer, also pays what that costs the others.
-/
inductive Pays (rates : Rates) (s : Sys T K V E) (t : T) (choice : Choice K V E)
    (s' : Sys T K V E)
    : Prop
  | quietly (same : s.SameWords s')
    (paid : s.work (t, choice) + s'.bill rates t ≤ s.fee rates (t, choice) + s.bill rates t)
  | updating (hinders : (s.pc t).hindrance rates = 3) (len : s'.len = s.len)
    (paid
      : s.work (t, choice) + s'.bill rates t + rates.update
        ≤ s.fee rates (t, choice) + s.bill rates t)
  | pushing (about : s.pc t = .pushZeroed) (freeHead : s'.freeHead = s.freeHead)
    (counts : ∀ idx, (s'.slots idx).refCount = (s.slots idx).refCount) (len : s'.len ≤ s.len + 1)
    (paid
      : s.work (t, choice) + s'.bill rates t + rates.push
        ≤ s.fee rates (t, choice) + s.bill rates t)

variable {rates : Rates} {dbg : Bool} {s s' staged : Sys T K V E} {t : T}
  {choice : Choice K V E}

omit [Key K] in
theorem SameWords.refl (s : Sys T K V E) : s.SameWords s :=
  ⟨Eq.refl _, fun _ => Eq.refl _, Eq.refl _⟩

theorem SameWords.stale {pc : Pc K V E} (same : s.SameWords s') : pc.stale s' = pc.stale s :=
  Pc.stale_congr same.freeHead same.counts

omit [Key K] in
theorem SameWords.answer (same : s.SameWords staged) (res : Res K V E)
    : s.SameWords (staged.answer t res) := by
  rw [answer_eq]
  exact ⟨same.freeHead, same.counts, same.len⟩

omit [Key K] in
theorem SameWords.miss (same : s.SameWords staged) (getter : Getter)
    : s.SameWords (staged.miss t getter) := by
  cases getter with
  | get owning => exact same.answer _
  | next currentIdx => exact same

omit [Key K] in
theorem work_le_one (s : Sys T K V E) (label : T × Choice K V E) : s.work label ≤ 1 := by
  rw [work]
  split
  · exact Nat.zero_le 1
  · exact Nat.le_refl 1

variable [DecidableEq T]

omit [Key K] in
theorem SameWords.goto (same : s.SameWords staged) (pc : Pc K V E)
    : s.SameWords (staged.goto t pc) :=
  ⟨same.freeHead, same.counts, same.len⟩

omit [Key K] in
theorem SameWords.begin (same : s.SameWords staged) (op : Op K)
    : s.SameWords (staged.begin t op) :=
  ⟨same.freeHead, same.counts, same.len⟩

omit [Key K] in
theorem SameWords.unwind (same : s.SameWords staged) : s.SameWords (staged.unwind t) := by
  rw [unwind_eq]
  exact ⟨same.freeHead, same.counts, same.len⟩

omit [Key K] in
theorem SameWords.finish (same : s.SameWords staged) (event : Nat → HistoryEvent K V E)
    : s.SameWords (staged.finish t event) := by
  rw [finish_eq]
  exact ⟨same.freeHead, same.counts, same.len⟩

/-- An activity that has nothing out of date owes the cost of its program counter. -/
theorem bill_goto {pc : Pc K V E} (fresh : pc.stale (staged.goto t pc) = false)
    : (staged.goto t pc).bill rates t = pc.cost rates staged.len := by
  simp only [bill, pc_goto_self, fresh]
  rfl

theorem bill_unwind : (staged.unwind t).bill rates t = 0 := by
  simp only [bill, pc_unwind_self]
  rfl

omit [DecidableEq T] in
theorem cost_le_bill (rates : Rates) (s : Sys T K V E) (t : T)
    : (s.pc t).cost rates s.len ≤ s.bill rates t :=
  Nat.le_add_right _ _

/-- An access that leaves the words alone is paid for if it brings the call forward. -/
theorem Pays.goes {pc : Pc K V E} (reached : s' = staged.goto t pc) (same : s.SameWords staged)
    (fresh : pc.stale s = false) (less : 1 + pc.cost rates s.len ≤ s.bill rates t)
    : Pays rates s t choice s' := by
  subst reached
  refine .quietly (same.goto pc) ?_
  have most := work_le_one s (t, choice)
  rw [bill_goto ((same.goto pc).stale.trans fresh), same.len]
  omega

/-- What was out of date remains so. -/
theorem Pays.carries {pc : Pc K V E} (reached : s' = staged.goto t pc) (same : s.SameWords staged)
    (stale : pc.stale s = (s.pc t).stale s)
    (less : 1 + pc.cost rates s.len ≤ (s.pc t).cost rates s.len)
    : Pays rates s t choice s' := by
  subst reached
  refine .quietly (same.goto pc) ?_
  have most := work_le_one s (t, choice)
  simp only [bill, pc_goto_self, (same.goto pc).stale, stale, (same.goto pc).len]
  omega

theorem Pays.unwinds (reached : s' = staged.unwind t) (same : s.SameWords staged)
    (more : 1 ≤ s.bill rates t)
    : Pays rates s t choice s' := by
  subst reached
  refine .quietly same.unwind ?_
  have most := work_le_one s (t, choice)
  rw [bill_unwind]
  omega

/-- An update is paid for if it brings the call forward by what it costs the others. -/
theorem Pays.updates {pc : Pc K V E} (hinders : (s.pc t).hindrance rates = 3)
    (reached : s' = staged.goto t pc) (len : staged.len = s.len)
    (fresh : pc.stale (staged.goto t pc) = false)
    (less : 1 + pc.cost rates s.len + rates.update ≤ s.bill rates t)
    : Pays rates s t choice s' := by
  subst reached
  refine .updating hinders len ?_
  have most := work_le_one s (t, choice)
  rw [bill_goto fresh, len]
  omega

/-- A step that is no access needs no more than its fee. -/
theorem Pays.free {pc : Pc K V E} (reached : s' = staged.goto t pc) (same : s.SameWords staged)
    (fresh : pc.stale s = false) (free : s.work (t, choice) = 0)
    (less : pc.cost rates s.len ≤ s.fee rates (t, choice) + s.bill rates t)
    : Pays rates s t choice s' := by
  subst reached
  refine .quietly (same.goto pc) ?_
  rw [bill_goto ((same.goto pc).stale.trans fresh), same.len, free]
  omega

variable [Fintype T]

omit [Key K] [DecidableEq T] [Fintype T] in
theorem work_of_paused (paused : (s.pc t).paused = true) : s.work (t, choice) = 0 := by
  simp only [work, paused, Bool.true_or, if_true]

/-- A call is charged for what it starts with, by cases on the call. -/
theorem call_pays {op : Op K} (paused : (s.pc t).paused = true) (found : s.call t op = some s')
    : Pays rates s t (.call op) s' := by
  have starting (staged : Sys T K V E) {pc : Pc K V E} (same : s.SameWords staged)
      (reached : s' = staged.goto t pc) (fresh : pc.stale s = false)
      (less : pc.cost rates s.len ≤ op.fee rates s.len) :
      Pays rates s t (.call op) s' :=
    .free reached same fresh (work_of_paused paused) (less.trans (Nat.le_add_right _ _))
  cases op with
  | dropGuard id =>
      rw [Sys.call] at found
      split at found
      · cases found
      · obtain ⟨⟨guard, others⟩, _, reached⟩ := Option.map_eq_some_iff.mp found
        refine starting _ (.answer (.begin ?_ _) .done) reached.symm rfl (Nat.le_refl _)
        exact ⟨rfl, fun _ => rfl, rfl⟩
  | forgetGuard id =>
      rw [Sys.call] at found
      split at found
      · cases found
      · obtain ⟨⟨guard, others⟩, _, reached⟩ := Option.map_eq_some_iff.mp found
        refine starting _ (.answer (.begin ?_ _) .done) reached.symm rfl (Nat.le_refl _)
        exact ⟨rfl, fun _ => rfl, rfl⟩
  | cloneGuard id =>
      obtain ⟨guard, _, reached⟩ := Option.map_eq_some_iff.mp found
      exact starting _ (.begin (.refl s) _) reached.symm rfl (Nat.le_refl _)
  | derefGuard id =>
      obtain ⟨guard, _, reached⟩ := Option.map_eq_some_iff.mp found
      exact starting _ (.answer (.begin (.refl s) _) _) reached.symm rfl (Nat.le_refl _)
  | reserve additional =>
      exact starting _ (.answer (.begin (.refl s) _) .done) (Option.some.inj found).symm rfl
        (Nat.le_refl _)
  | get key owning =>
      refine starting _ (.begin (.refl s) _) (Option.some.inj found).symm rfl ?_
      simp only [Pc.cost, Getter.cost, Op.fee]
      omega
  | _ =>
      exact starting _ (.begin (.refl s) _) (Option.some.inj found).symm rfl (Nat.le_refl _)

omit [DecidableEq T] [Fintype T] in
/-- A weak exchange is paid for: if it fails although the word is the expected one, by the fee for
that, and otherwise by what was charged for its repetition.
-/
theorem weak_pays {done retry : Sys T K V E} {pc : Pc K V E} (running : (s.pc t).paused = false)
    (spins : s.spins t = false) (found : choice.onWeak (!(s.pc t).stale s) done retry = some s')
    (success : Pays rates s t choice done)
    (same : s.SameWords retry) (reached : retry.pc t = pc) (fresh : pc.stale s = false)
    (less : pc.cost rates s.len ≤ (s.pc t).cost rates s.len + 2)
    : Pays rates s t choice s' := by
  have again (s'' : Sys T K V E) (reached' : s'' = retry)
      (paid : s.work (t, choice) + pc.cost rates s.len
        ≤ s.fee rates (t, choice) + s.bill rates t) :
      Pays rates s t choice s'' := by
    subst reached'
    refine .quietly same ?_
    simp only [bill, reached, same.stale, fresh, same.len]
    exact paid
  cases choice with
  | go =>
      rw [Choice.onWeak] at found
      have reached' := (Option.some.inj found).symm
      cases stale : (s.pc t).stale s with
      | false =>
          rw [stale] at reached'
          exact reached' ▸ success
      | true =>
          rw [stale] at reached'
          refine again s' reached' ?_
          have most := work_le_one s (t, (.go : Choice K V E))
          simp only [bill, stale, if_true]
          omega
  | spurious =>
      refine again s' (Option.some.inj found).symm ?_
      simp only [work, running, spins, Choice.isSpurious, Bool.or_true, if_true, fee]
      have most := cost_le_bill rates s t
      omega
  | _ => cases found

omit [Key K] [DecidableEq T] [Fintype T] in
/-- Storing anything but a reference count in a slot leaves the words alone. -/
theorem SameWords.setSlot {idx nextFree version : Nat} {data : Option (Stored V)}
    : s.SameWords (s.setSlot idx ⟨data, nextFree, (s.slots idx).refCount, version⟩) where
  freeHead := Eq.refl _
  counts other := by
    by_cases here : other = idx
    · subst here
      simp only [Sys.setSlot, Function.update_self]
    · simp only [Sys.setSlot, Function.update_of_ne here]
  len := Eq.refl _

omit [Key K] [DecidableEq T] [Fintype T] in
theorem SameWords.setNumElems (count : Nat) : s.SameWords (s.setNumElems count) :=
  ⟨Eq.refl _, fun _ => Eq.refl _, Eq.refl _⟩

omit [Key K] [DecidableEq T] [Fintype T] in
theorem SameWords.emit (same : s.SameWords staged) (event : Event T K V)
    : s.SameWords (staged.emit event) :=
  ⟨same.freeHead, same.counts, same.len⟩

omit [Fintype T] in
/-- Giving up a reference is paid for on both ways on. -/
theorem decRefCount_pays {idx : Nat} {needsDrop otherwise : Pc K V E}
    (decrements : (s.pc t).Decrements idx needsDrop otherwise)
    : Pays rates s t choice (s.decRefCount t idx needsDrop otherwise) := by
  have owed := cost_le_bill rates s t
  obtain ⟨hinders, dropping, leaving⟩ := decrements.forward rates s
  rw [Sys.decRefCount]
  split
  · exact .updates hinders rfl rfl (dropping.2 _) (dropping.1.trans owed)
  · exact .updates hinders rfl rfl (leaving.2 _) (leaving.1.trans owed)

omit [Fintype T] in
/-- An access that brings its call forward and may leave its activity with what was out of date. -/
theorem Pays.forward {pc : Pc K V E} (reached : s' = staged.goto t pc) (same : s.SameWords staged)
    (forward
      : 1 + pc.cost rates s.len ≤ (s.pc t).cost rates s.len
        ∧ (pc.stale s = false ∨ pc.stale s = (s.pc t).stale s))
    : Pays rates s t choice s' := by
  obtain ⟨less, fresh | stale⟩ := forward
  · exact .goes reached same fresh (less.trans (cost_le_bill rates s t))
  · exact .carries reached same stale less

omit [Fintype T] in
/-- A move of a call that goes on without a weak exchange is paid for, by cases on the move. -/
theorem Moves.pays (moves : s.Moves dbg t s') (running : (s.pc t).paused = false)
    (firm : (s.pc t).exchanges = false)
    : Pays rates s t choice s' := by
  have owed := cost_le_bill rates s t
  have same := SameWords.refl s
  have never {op : Op K} (calls : (s.pc t).Calls op) : Pays rates s t choice s' := by
    rcases calls with ⟨about, _⟩ | ⟨_, about, _⟩
    all_goals
      rw [about] at running
      cases running
  cases moves with
  | stay idx next about missing =>
      have spins : s.spins t = true := by simp [Sys.spins, about, missing]
      have free : s.work (t, choice) = 0 := by simp [work, spins]
      exact .quietly same (by omega)
  | go pc goes => exact .forward rfl same (goes.forward running firm)
  | answered res pc answers =>
      obtain ⟨less, fresh⟩ := answers.forward running firm
      exact .forward rfl (same.answer _) ⟨less, Or.inl fresh⟩
  | failed fails => exact .unwinds rfl same (fails.charged.trans owed)
  | popped _ _ _ about | recycled _ _ _ about | acquired _ _ _ about =>
      rw [about] at firm
      cases firm
  | began _ _ calls | beganReserve _ calls | beganDeref _ _ calls | beganDrop _ _ calls
  | beganForget _ _ calls => exact never calls
  | returned _ about | unwound about =>
      rw [about] at running
      cases running
  | pushed about =>
      have grown : wrappingAdd s.len 1 ≤ s.len + 1 := Nat.mod_le _ _
      have most := work_le_one s (t, choice)
      refine .pushing about rfl (fun _ => rfl) grown ?_
      rw [about, Pc.cost] at owed
      rw [Sys.pushZeroed, bill_goto rfl]
      simp only [Pc.cost, AfterEnsure.cost]
      omega
  | wrote idx version value about =>
      refine .goes rfl (SameWords.setSlot.emit _) rfl ?_
      rw [about, Pc.cost] at owed
      simp only [Pc.cost]
      omega
  | armed idx version stored about =>
      refine .updates (about ▸ rfl) rfl rfl rfl ?_
      rw [about, Pc.cost] at owed
      simp only [Pc.cost]
      omega
  | published idx version stored about =>
      refine .goes rfl ((SameWords.setSlot.emit _).answer _) rfl ?_
      rw [about, Pc.cost] at owed
      exact owed
  | counted _ _ about | discounted _ about =>
      refine .goes rfl ((SameWords.setNumElems _).emit _) rfl ?_
      rw [about, Pc.cost] at owed
      exact owed
  | allocated chunk after about =>
      refine .goes rfl ⟨rfl, fun _ => rfl, rfl⟩ rfl ?_
      rw [about, Pc.cost] at owed
      simp only [Pc.cost]
      omega
  | installed chunk new after about =>
      have resumed : (after.resume : Pc K V E).cost rates s.len ≤ after.cost rates :=
        after.cost_resume
      rw [about, Pc.cost] at owed
      exact .goes rfl ⟨rfl, fun _ => rfl, rfl⟩ after.stale_resume (by omega)
  | deallocated new after about =>
      have resumed : (after.resume : Pc K V E).cost rates s.len ≤ after.cost rates :=
        after.cost_resume
      rw [about, Pc.cost] at owed
      exact .goes rfl (same.emit _) after.stale_resume (by omega)
  | linked idx old after about =>
      refine .carries rfl SameWords.setSlot (by rw [about]; rfl) ?_
      rw [about]
      simp only [Pc.cost]
      omega
  | dropped idx after about =>
      rw [about, Pc.cost] at owed
      refine .goes rfl (SameWords.setSlot.emit _) (Pc.stale_pushFreeIndex _ _) ?_
      exact (Nat.add_le_add_left (Pc.cost_pushFreeIndex _ _) 1).trans (by omega)
  | dropPanicked idx after about =>
      rw [about, Pc.cost] at owed
      exact .unwinds rfl (SameWords.setSlot.emit _) (by omega)
  | retired key current about current' =>
      rw [removeExchange, if_pos current']
      refine .goes rfl ((SameWords.setSlot.emit _).answer _) rfl ?_
      rw [about, Pc.cost] at owed
      simp only [Pc.cost]
      split at owed <;> omega
  | decremented idx needsDrop otherwise decrements => exact decRefCount_pays decrements
  | guarded key getter about current =>
      simp only [acquireCheck, if_pos current]
      refine .goes rfl (.answer ?_ _) rfl ?_
      · exact ⟨rfl, fun _ => rfl, rfl⟩
      · rw [about, Pc.cost] at owed
        simp only [Pc.cost]
        omega
  | cloned guard about =>
      rw [about, Pc.cost] at owed
      simp only [cloneGuard]
      split
      · refine .updates (about ▸ rfl) rfl (alike_answer _ t _).len rfl ?_
        simp only [Pc.cost]
        omega
      · have most := work_le_one s (t, choice)
        refine .updating (about ▸ rfl) (alike_unwind _ t).len ?_
        rw [bill_unwind]
        omega

/-- A step of an activity that pauses is no access, by cases on where it stands. -/
theorem paused_pays (paused : (s.pc t).paused = true) (found : step dbg s t choice = some s')
    : Pays rates s t choice s' := by
  have owed := cost_le_bill rates s t
  have same := SameWords.refl s
  have free : s.work (t, choice) = 0 := work_of_paused paused
  cases about : s.pc t with
  | idle =>
      simp only [step, about] at found
      cases choice with
      | call op =>
          simp only at found
          split at found
          · cases found
          · exact call_pays paused found
      | iterate => exact .free (Option.some.inj found).symm same rfl free (Nat.zero_le _)
      | _ => cases found
  | iterating currentIdx =>
      simp only [step, about] at found
      cases choice with
      | call op =>
          simp only at found
          split at found
          · exact call_pays paused found
          · cases found
      | endIterate => exact .free (Option.some.inj found).symm same rfl free (Nat.zero_le _)
      | _ => cases found
  | ret res =>
      simp only [step, about] at found
      refine .free (Choice.eq_of_onGo found) (same.finish _) res.stale_rest free ?_
      rw [Res.cost_rest]
      exact Nat.zero_le _
  | unwinding =>
      simp only [step, about] at found
      exact .free (Choice.eq_of_onGo found) (same.finish _) rfl free (Nat.zero_le _)
  | closure idx version =>
      rw [about, Pc.cost] at owed
      simp only [step, about] at found
      cases choice with
      | closureOk value =>
          refine .free (Option.some.inj found).symm same ?_ free ?_
          · exact Pc.stale_exclusivelyOwned idx (.insertWrite idx version value)
          · refine Nat.le_trans (Nat.succ_le_succ (Pc.cost_exclusivelyOwned _ _)) ?_
            simp only [Pc.cost]
            omega
      | closureErr err =>
          refine .free (Option.some.inj found).symm (same.answer _) (Pc.stale_pushFreeIndex _ _)
            free ?_
          refine (Pc.cost_pushFreeIndex _ _).trans ?_
          simp only [AfterPush.cost]
          omega
      | panic => exact .unwinds (Option.some.inj found).symm same (by omega)
      | _ => cases found
  | _ =>
      rw [about] at paused
      cases paused

/-- The exchange of `pop_free_index`. -/
theorem popCas_pays {old next seen : Nat} (about : s.pc t = .popCas old next seen)
    (found : step dbg s t choice = some s')
    : Pays rates s t choice s' := by
  have owed := cost_le_bill rates s t
  have stale : (s.pc t).stale s = (old != s.freeHead) := about ▸ rfl
  have expected : (s.freeHead == old) = !(s.pc t).stale s := by
    rw [stale, bne, Bool.not_not, Bool.beq_comm]
  simp only [step, about] at found
  rw [expected] at found
  rw [about, Pc.cost] at owed
  refine weak_pays (about ▸ rfl) (by rw [spins, about]) found ?_ ((SameWords.refl s).goto _)
    (pc_goto_self _ _ _) (Pc.stale_popLoop _) ?_
  · refine .updates (about ▸ rfl) rfl rfl ?_ ?_
    · exact Pc.stale_exclusivelyOwned _ (.waitForChunk _ (.insertVersion _))
    · exact (Nat.add_le_add_right (Nat.add_le_add_left
        (Pc.cost_exclusivelyOwned _ (.waitForChunk _ (.insertVersion _))) 1) _).trans
        (by simp only [Pc.cost]; omega)
  · rw [about]
    exact Pc.cost_popLoop _ _

/-- The exchange of `push_free_index`. -/
theorem pushCas_pays {idx old : Nat} {after : AfterPush K E} (about : s.pc t = .pushCas idx old after)
    (found : step dbg s t choice = some s')
    : Pays rates s t choice s' := by
  have owed := cost_le_bill rates s t
  have stale : (s.pc t).stale s = (old != s.freeHead) := about ▸ rfl
  have expected : (s.freeHead == old) = !(s.pc t).stale s := by
    rw [stale, bne, Bool.not_not, Bool.beq_comm]
  simp only [step, about] at found
  rw [expected] at found
  rw [about, Pc.cost] at owed
  refine weak_pays (about ▸ rfl) (by rw [spins, about]) found ?_ ((SameWords.refl s).goto _)
    (pc_goto_self _ _ _) (bne_self_eq_false _) ?_
  · refine .updates (about ▸ rfl) rfl rfl after.stale_resume ?_
    rw [AfterPush.cost_resume]
    omega
  · rw [about]
    simp only [Pc.cost]
    omega

/-- The exchange of `acquire_guard`. -/
theorem acquireCas_pays {key : K} {getter : Getter} {refcount : Nat}
    (about : s.pc t = .acquireCas key getter refcount) (found : step dbg s t choice = some s')
    : Pays rates s t choice s' := by
  have running : (s.pc t).paused = false := about ▸ rfl
  have spins : s.spins t = false := by rw [spins, about]
  have owed := cost_le_bill rates s t
  have same := SameWords.refl s
  have stale
    : (s.pc t).stale s = (refcount != (s.slots (KeyData.idx key)).refCount) := about ▸ rfl
  have expected
    : ((s.slots (KeyData.idx key)).refCount == refcount) = !(s.pc t).stale s := by
    rw [stale, bne, Bool.not_not, Bool.beq_comm]
  have most : (s.pc t).cost rates s.len = getter.cost rates s.len + 3 * rates.update + 10 := by
    rw [about, Pc.cost]
  have success
    : Pays rates s t choice
        ((s.setSlot (KeyData.idx key)
          { s.slots (KeyData.idx key) with refCount := refcount + 1 }).goto t
          (.acquireVersion key getter)) := by
    refine .updates (about ▸ rfl) rfl rfl rfl ?_
    simp only [Pc.cost]
    omega
  simp only [step, about] at found
  rw [expected, acquireLoop] at found
  split at found
  · exact weak_pays running spins found success same.unwind (pc_unwind_self _ _) rfl (Nat.zero_le _)
  · split at found
    · refine weak_pays running spins found success ((same.miss _).goto _) (pc_goto_self _ _ _)
        getter.stale_missed ?_
      rw [Getter.cost_missed]
      omega
    · refine weak_pays running spins found success (same.goto _) (pc_goto_self _ _ _)
        (bne_self_eq_false _) ?_
      rw [most]
      simp only [Pc.cost]
      omega

/-- Every step is paid for, by cases on what its activity is about to do. -/
theorem step_pays (found : step dbg s t choice = some s') : Pays rates s t choice s' := by
  cases paused : (s.pc t).paused with
  | true => exact paused_pays paused found
  | false =>
      cases exchanges : (s.pc t).exchanges with
      | false => exact (step_moves found).pays paused exchanges
      | true =>
          cases about : s.pc t with
          | popCas => exact popCas_pays about found
          | pushCas => exact pushCas_pays about found
          | acquireCas => exact acquireCas_pays about found
          | _ =>
              rw [about] at exchanges
              cases exchanges

end Sys

end AtomicSlotMap
