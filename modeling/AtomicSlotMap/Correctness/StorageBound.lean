import AtomicSlotMap.Correctness.Partition
import AtomicSlotMap.History.Solo

/-! No slot leaks: the vector is never longer than the peak of the demand for slots. -/

namespace AtomicSlotMap

variable {T K V E : Type} [Key K]

/-- Whether an insertion has seen the free list empty and not yet claimed an index. -/
def Pc.growing : Pc K V E → Bool
  | .waitForChunk _ next | .assertRefCount _ next | .assertVersion _ next => next.growing
  | .pushZeroed => true
  | _ => false

namespace Sys

/-- A slot is occupied, referenced or held by an activity. -/
def InUse (s : Sys T K V E) (idx : Nat) : Prop :=
  (s.slots idx).version % 2 = 1
  ∨ 0 < (s.slots idx).refCount
  ∨ ∃ t, (s.pc t).holds = some idx

variable [Fintype T]

instance (s : Sys T K V E) (idx : Nat) : Decidable (s.InUse idx) :=
  inferInstanceAs (Decidable (_ ∨ _ ∨ _))

/-- The number of slots in use. -/
def used (s : Sys T K V E) : Nat := ((Finset.range s.len).filter s.InUse).card

/-- The number of insertions about to claim an index. -/
def growth (s : Sys T K V E) : Nat := ∑ t, if (s.pc t).growing then 1 else 0

/-- The slots in use and those about to be. -/
def demand (s : Sys T K V E) : Nat := s.used + s.growth

end Sys

-----------------------------------------------------------------------------------------
-- Insertions that are about to grow the vector
-----------------------------------------------------------------------------------------

section

variable {dbg : Bool} {s : Sys T K V E} {pc pc' : Pc K V E}

attribute [local simp] Pc.growing

omit [Key K] in
@[simp] theorem Pc.growing_exclusivelyOwned (idx : Nat) (next : Pc K V E)
    : (Pc.exclusivelyOwned dbg idx next).growing = next.growing := by
  cases dbg <;> rfl

omit [Key K] in
@[simp] theorem Pc.growing_pushFreeIndex (idx : Nat) (after : AfterPush K E)
    : (Pc.pushFreeIndex dbg idx after : Pc K V E).growing = false := by
  cases dbg <;> rfl

omit [Key K] in
@[simp] theorem Getter.growing_missed (getter : Getter)
    : (getter.missed : Pc K V E).growing = false := by
  cases getter <;> rfl

omit [Key K] in
@[simp] theorem AfterPush.growing_resume (after : AfterPush K E)
    : (after.resume : Pc K V E).growing = false := by
  cases after <;> simp [AfterPush.resume, Pc.growing]

omit [Key K] in
@[simp] theorem AfterEnsure.growing_resume (after : AfterEnsure)
    : (after.resume : Pc K V E).growing = false := by
  cases after with
  | pushed idx => rfl
  | reserving chunk maxChunk =>
      simp only [AfterEnsure.resume]
      split <;> rfl

omit [Key K] in
@[simp] theorem Res.growing_rest (res : Res K V E) : res.rest.growing = false := by
  cases res <;> rfl

omit [Key K] in
theorem Pc.not_growing_of_suspended (suspended : pc.suspended = true) : pc.growing = false := by
  cases pc <;> first | rfl | cases suspended

omit [Key K] in
/-- Only an empty free list makes an insertion grow the vector. -/
theorem Pc.growing_popLoop {head updates : Nat}
    (growing : (Pc.popLoop head updates : Pc K V E).growing = true)
    : (unpackFreeHead head).2 = SENTINEL := by
  rw [Pc.popLoop] at growing
  split at growing
  · assumption
  · cases growing

/-- A move of a program counter, by cases on the move. -/
theorem Pc.Goes.growing (goes : pc.Goes dbg s pc') (growing : pc'.growing = true)
    : pc.growing = true ∨ (unpackFreeHead s.freeHead).2 = SENTINEL := by
  cases goes with
  | arrived | unreferenced | unoccupied => exact Or.inl growing
  | popLoad | popAgain => exact Or.inr (Pc.growing_popLoop growing)
  | _ => simp [Pc.growing] at growing

theorem Pc.Answers.growing {res : Res K V E} (answers : pc.Answers dbg s res pc')
    : pc'.growing = false := by
  cases answers <;> simp [Pc.growing]

theorem Pc.Decrements.growing {needsDrop otherwise : Pc K V E} {idx : Nat}
    (decrements : pc.Decrements idx needsDrop otherwise)
    : needsDrop.growing = false ∧ otherwise.growing = false := by
  cases decrements <;> simp [Pc.growing]

theorem Op.Starts.growing {op : Op K} (starts : op.Starts s pc) : pc.growing = false := by
  cases starts <;> rfl

end

namespace Sys

variable [DecidableEq T] {dbg : Bool} {s s' : Sys T K V E} {t : T} {free : List Nat}

/-- An insertion grows the vector only if it has just seen the free list empty, by cases on the
move.
-/
theorem Moves.growing (moves : s.Moves dbg t s') (growing : (s'.pc t).growing = true)
    : ((s.pc t).growing = true ∧ s'.freeHead = s.freeHead)
      ∨ (unpackFreeHead s'.freeHead).2 = SENTINEL := by
  cases moves with
  | stay => exact Or.inl ⟨growing, rfl⟩
  | go pc goes =>
      rw [pc_goto_self] at growing
      exact (goes.growing growing).imp_left fun before => ⟨before, rfl⟩
  | answered res pc answers =>
      rw [pc_goto_self, answers.growing] at growing
      cases growing
  | began op pc calls starts =>
      rw [pc_goto_self, starts.growing] at growing
      cases growing
  | decremented idx needsDrop otherwise decrements =>
      rw [decRefCount] at growing
      split at growing
      · rw [pc_goto_self, decrements.growing.1] at growing
        cases growing
      · rw [pc_goto_self, decrements.growing.2] at growing
        cases growing
  | failed | dropPanicked =>
      rw [pc_unwind_self] at growing
      cases growing
  | popped =>
      simp only [popExchange, pc_goto_self, Pc.growing_exclusivelyOwned] at growing
      cases growing
  | pushed | wrote | armed | published =>
      simp only [pushZeroed, writeValue, storeRefCount, publish, pc_goto_self] at growing
      cases growing
  | recycled =>
      simp only [pushExchange, pc_goto_self, AfterPush.growing_resume] at growing
      cases growing
  | dropped =>
      rw [pc_goto_self, Pc.growing_pushFreeIndex] at growing
      cases growing
  | installed | deallocated =>
      rw [pc_goto_self, AfterEnsure.growing_resume] at growing
      cases growing
  | retired key current about same =>
      simp only [removeExchange, if_pos same, pc_goto_self] at growing
      cases growing
  | guarded key getter about same =>
      simp only [acquireCheck, if_pos same, pc_goto_self] at growing
      cases growing
  | cloned guard about =>
      rw [cloneGuard] at growing
      generalize wrappingAdd (s.slots (KeyData.idx guard.key)).refCount 1 = count at growing
      dsimp only at growing
      split at growing
      · rw [pc_goto_self] at growing
        cases growing
      · rw [pc_unwind_self] at growing
        cases growing
  | returned =>
      rw [pc_goto_self, Res.growing_rest] at growing
      cases growing
  | counted | allocated | linked | discounted | acquired | beganReserve | beganDeref
  | beganDrop | beganForget | unwound =>
      rw [pc_goto_self] at growing
      cases growing

variable [Fintype T]

/-- A step changes the growth by the activity that moves. -/
theorem Moves.growth (moves : s.Moves dbg t s')
    : s'.growth + (if (s.pc t).growing then 1 else 0)
      = s.growth + if (s'.pc t).growing then 1 else 0 := by
  have pcs : s'.pc = Function.update s.pc t (s'.pc t) := by
    funext other
    by_cases self : other = t
    · subst other
      rw [Function.update_self]
    · rw [Function.update_of_ne self]
      exact moves.others other self
  rw [Sys.growth, pcs, Function.update_self]
  exact Library.total_update s.pc t (s'.pc t) fun pc => if pc.growing then 1 else 0

-----------------------------------------------------------------------------------------
-- Slots in use
-----------------------------------------------------------------------------------------

omit [Key K] [DecidableEq T] in
theorem used_le (s : Sys T K V E) : s.used ≤ s.len := by
  have within := Finset.card_filter_le (Finset.range s.len) s.InUse
  rwa [Finset.card_range] at within

/-- The slots in use are those that are not on the free list. -/
theorem Inv.inUse_iff (inv : s.Inv free) (nothingLost : s.NothingLost) {idx : Nat}
    (within : idx < s.len)
    : s.InUse idx ↔ idx ∉ free := by
  constructor
  · intro inUse listed
    have phase := (inv.owned.free idx).mp listed
    have fits := inv.owned.slots idx
    rw [phase] at fits
    rcases inUse with odd | referenced | ⟨t, holds⟩
    · exact absurd fits.1 (by change ¬ (s.slots idx).version % 2 = 0; omega)
    · exact absurd fits.2.1 (Nat.ne_of_gt referenced)
    · obtain ⟨answerable, staying⟩ := Pc.role_of_holds holds
      have held := (inv.owned.roles t idx (Role.slot_of_holds answerable)).situation answerable
        staying
      rw [phase] at held
      cases held
  · intro apart
    cases phase : (s.view free).phase idx with
    | unborn => exact absurd ((inv.owned.born idx).mp phase) (Nat.not_le_of_lt within)
    | free => exact absurd ((inv.owned.free idx).mpr phase) apart
    | lost => exact absurd phase (inv.not_lost nothingLost idx)
    | live => exact Or.inl (inv.is_of_situation (by rw [phase]; rfl) : s.Is free idx .live).1
    | retired =>
        exact Or.inr (Or.inl
          (inv.is_of_situation (by rw [phase]; rfl) : s.Is free idx .removed).2.2.1)
    | _ =>
        obtain ⟨_, t, holds, _⟩ := (inv.is_of_situation (by rw [phase]; rfl) : s.Is free idx .held)
        exact Or.inr (Or.inr ⟨t, holds⟩)

/-- All slots are in use when the free list is empty. -/
theorem Inv.used_of_empty (inv : s.Inv free) (nothingLost : s.NothingLost)
    (empty : (unpackFreeHead s.freeHead).2 = SENTINEL)
    : s.used = s.len := by
  have chain := inv.chain
  rw [empty] at chain
  have none := chain.nil_of_stop
  have all : (Finset.range s.len).filter s.InUse = Finset.range s.len := by
    refine Finset.filter_true_of_mem fun idx member => ?_
    apply (inv.inUse_iff nothingLost (Finset.mem_range.mp member)).mpr
    rw [none]
    exact List.not_mem_nil
  rw [used, all, Finset.card_range]

-----------------------------------------------------------------------------------------
-- The length along a path
-----------------------------------------------------------------------------------------

omit [Key K] [DecidableEq T] in
theorem growth_withKey : (Sys.withKey T K V E).growth = 0 := by
  rw [growth]
  exact Finset.sum_eq_zero fun t _ => rfl

/-- The length and the insertions about to increase it stay below the peak of the demand, by
induction on the path. Whoever joins these insertions has seen all slots in use.
-/
theorem len_le_peak {states : List (Sys T K V E)}
    (path : Library.Path (CalmNext dbg) (.withKey T K V E) states)
    : ∀ s ∈ states.head?, s.len + s.growth ≤ Library.peak demand states := by
  induction path with
  | start =>
      rintro s ⟨⟩
      rw [growth_withKey]
      exact Nat.zero_le _
  | @next s s' earlier path next ih =>
      rintro _ ⟨⟩
      have calm : Calm dbg s' := (path.next next).run s' rfl
      obtain ⟨free, inv⟩ := calm.reachable.inv
      have before := ih s rfl
      obtain ⟨t, choice, within, found, _⟩ := next
      have moves := step_moves found
      have balance := moves.growth
      rw [Library.peak_cons]
      rcases moves.pushes with ⟨len, _⟩ | ⟨about, rfl⟩
      · by_cases growing : (s'.pc t).growing = true
        · rcases moves.growing growing with ⟨earlier, _⟩ | empty
          · rw [if_pos earlier, if_pos growing] at balance
            omega
          · have all := inv.used_of_empty calm.nothingLost empty
            have demanded : s'.demand = s'.len + s'.growth := by rw [demand, all]
            omega
        · rw [if_neg growing] at balance
          omega
      · have room := within.room about
        have len : (s.pushZeroed t).len = s.len + 1 := Nat.mod_eq_of_lt room
        have grown : ((s.pushZeroed t).pc t).growing = false := by
          simp only [pushZeroed, pc_goto_self]
          rfl
        have growing : (s.pc t).growing = true := by rw [about]; rfl
        rw [if_pos growing, grown, if_neg Bool.false_ne_true] at balance
        omega

/-- With a single thread the length is the peak of the slots in use, by induction on the path.
Nobody fills the free list between the load of an empty head and the claim of an index.
-/
theorem len_eq_peak {states : List (Sys T K V E)}
    (path : Library.Path (SoloNext dbg) (.withKey T K V E) states)
    : ∀ s ∈ states.head?,
        s.len = Library.peak used states
        ∧ ∀ t, (s.pc t).growing = true → (unpackFreeHead s.freeHead).2 = SENTINEL := by
  induction path with
  | start =>
      rintro s ⟨⟩
      exact ⟨rfl, nofun⟩
  | @next s s' earlier path next ih =>
      rintro _ ⟨⟩
      have solo : Solo dbg s' := (path.next next).run s' rfl
      obtain ⟨free, inv⟩ := solo.calm.reachable.inv
      obtain ⟨len, empty⟩ := ih s rfl
      obtain ⟨t, choice, within, alone, found, _⟩ := next
      have moves := step_moves found
      refine ⟨?_, ?_⟩
      · rw [Library.peak_cons]
        rcases moves.pushes with ⟨same, _⟩ | ⟨about, rfl⟩
        · have bounded := s'.used_le
          omega
        · have grown : (s.pushZeroed t).len = s.len + 1 := Nat.mod_eq_of_lt (within.room about)
          have all : (s.pushZeroed t).used = (s.pushZeroed t).len :=
            inv.used_of_empty solo.calm.nothingLost (empty t (by rw [about]; rfl))
          omega
      · intro other growing
        by_cases self : other = t
        · subst other
          rcases moves.growing growing with ⟨before, head⟩ | empty'
          · rw [head]
            exact empty t before
          · exact empty'
        · rw [moves.others other self, Pc.not_growing_of_suspended (alone other self)] at growing
          cases growing

end Sys

open Sys in
/-- At every point of every run without panics, of any number of activities, the length of the
vector is at most the peak so far of the slots in use, which are those not on the free list,
and the insertions that have seen the free list empty and not yet claimed an index. In a run of
a single thread it is the peak of the slots in use.
-/
theorem storage_bounded_by_peak [DecidableEq T] [Fintype T] {dbg : Bool} {s : Sys T K V E}
    {earlier : List (Sys T K V E)}
    (path : Library.Path (CalmNext dbg) (.withKey T K V E) (s :: earlier))
    : s.len ≤ Library.peak demand (s :: earlier)
      ∧ (∀ free, s.FreeList free → ∀ idx < s.len, s.InUse idx ↔ idx ∉ free)
      ∧ (Library.Path (SoloNext dbg) (.withKey T K V E) (s :: earlier) →
          s.len = Library.peak used (s :: earlier)) := by
  have calm : Calm dbg s := path.run s rfl
  obtain ⟨free, inv⟩ := calm.reachable.inv
  refine ⟨?_, ?_, fun solo => (len_eq_peak solo s rfl).1⟩
  · exact (Nat.le_add_right _ _).trans (len_le_peak path s rfl)
  · intro listed list idx within
    rw [list.unique inv.chain]
    exact inv.inUse_iff calm.nothingLost within

/-- A single activity fails to insert, inserts, removes and inserts again. -/
def failInsertRemoveInsert : List (Unit × Choice UInt64 Nat Nat) :=
  Sys.turns () (
    [.call .tryInsertWithKey, .go, .go, .go, .go, .go, .closureErr 4] ++ List.replicate 7 .go
    ++ [.call .tryInsertWithKey, .go, .go, .go, .go, .go, .go, .go, .go, .closureOk 7]
    ++ List.replicate 8 .go
    ++ .call (.remove ((1 : UInt64) <<< 32)) :: List.replicate 14 .go
    ++ [.call .tryInsertWithKey, .go, .go, .go, .go, .go, .go, .go, .go, .closureOk 8]
    ++ List.replicate 8 .go)

open Sys in
/-- In that run one slot is used again and again. -/
theorem storage_bounded_by_peak_failInsertRemoveInsert
    : ∃ (s : Sys Unit UInt64 Nat Nat) (earlier : List (Sys Unit UInt64 Nat Nat)),
        Library.Path (SoloNext true) (.withKey Unit UInt64 Nat Nat) (s :: earlier)
        ∧ s.len = 1
        ∧ (s.slots 0).version = 3
        ∧ s.len ≤ Library.peak demand (s :: earlier)
        ∧ s.len = Library.peak used (s :: earlier) := by
  have found : (Sys.runIf (fun s t => s.within? t && decide (s.Alone t) && s.calm?) true
      (.withKey Unit UInt64 Nat Nat) failInsertRemoveInsert).map
      (fun s => (s.calm?, s.len, (s.slots 0).version)) = some (true, 1, 3) := by decide +kernel
  obtain ⟨s, reached, after⟩ := Option.map_eq_some_iff.mp found
  simp only [Prod.mk.injEq] at after
  obtain ⟨calm, len, version⟩ := after
  obtain ⟨earlier, path⟩ := Library.Path.of_run (Solo.of_run reached calm)
  obtain ⟨bounded, _, exactly⟩ := storage_bounded_by_peak (path.mono fun _ _ => SoloNext.calm)
  exact ⟨s, earlier, path, len, version, bounded, exactly path⟩

end AtomicSlotMap
