import AtomicSlotMap.Correctness.MemorySafety
import AtomicSlotMap.Correctness.Reserve
import AtomicSlotMap.Correctness.StorageBound
import Mathlib.Data.Finset.Max

/-! What the vector occupies. Every chunk is allocated for an index that was handed out or for a
reservation, and each chunk is four times as large as the one before it. So the chunks hold at most
four times as many elements as were asked for at once.
-/

namespace AtomicSlotMap

open Library

variable {T K V E : Type} [Key K]

/-- How many elements the chunks of a reservation are for, at least. -/
def AfterEnsure.reach : AfterEnsure → Nat
  | .pushed _ => 0
  | .reserving _ maxChunk => capacityBelow maxChunk + 1

/-- How many elements the chunks that an activity may still install are for, at least. -/
def Pc.reach : Pc K V E → Nat
  | .waitForChunk _ next | .assertRefCount _ next | .assertVersion _ next => next.reach
  | .ensureLoad chunk after | .ensureAlloc chunk after | .ensureCas chunk _ after =>
      max (capacityBelow chunk + 1) after.reach
  | .ensureDealloc _ after => after.reach
  | _ => 0

section

variable {dbg : Bool} {s : Sys T K V E} {pc pc' : Pc K V E} {bound : Nat}

attribute [local simp] Pc.reach

omit [Key K] in
@[simp] theorem Pc.reach_exclusivelyOwned (idx : Nat) (next : Pc K V E)
    : (Pc.exclusivelyOwned dbg idx next).reach = next.reach := by
  cases dbg <;> rfl

omit [Key K] in
@[simp] theorem Pc.reach_pushFreeIndex (idx : Nat) (after : AfterPush K E)
    : (Pc.pushFreeIndex dbg idx after : Pc K V E).reach = 0 := by
  cases dbg <;> rfl

omit [Key K] in
@[simp] theorem Pc.reach_popLoop (head updates : Nat)
    : (Pc.popLoop head updates : Pc K V E).reach = 0 := by
  rw [Pc.popLoop]
  split <;> rfl

omit [Key K] in
@[simp] theorem Getter.reach_missed (getter : Getter) : (getter.missed : Pc K V E).reach = 0 := by
  cases getter <;> rfl

omit [Key K] in
@[simp] theorem AfterPush.reach_resume (after : AfterPush K E)
    : (after.resume : Pc K V E).reach = 0 := by
  cases after <;> simp [AfterPush.resume, Pc.reach]

omit [Key K] in
@[simp] theorem Res.reach_rest (res : Res K V E) : res.rest.reach = 0 := by
  cases res <;> rfl

omit [Key K] in
/-- A reservation goes on with a chunk that it asks for. -/
theorem AfterEnsure.reach_resume (after : AfterEnsure)
    : (after.resume : Pc K V E).reach ≤ after.reach := by
  cases after with
  | pushed idx => exact Nat.zero_le _
  | reserving chunk maxChunk =>
      simp only [AfterEnsure.resume]
      split
      · next less =>
        have before := capacityBelow_mono (show chunk + 1 ≤ maxChunk from less)
        simp only [Pc.reach, AfterEnsure.reach]
        omega
      · exact Nat.zero_le _

/-- A move of a program counter, by cases on the move. -/
theorem Pc.Goes.reach (goes : pc.Goes dbg s pc') (reach : pc.reach ≤ bound)
    (reserves
      : ∀ additional targetCap, pc = .vecReserve additional →
          addUsize dbg s.len additional = some targetCap → targetCap ≤ bound)
    : pc'.reach ≤ bound := by
  cases goes with
  | arrived | unreferenced | unoccupied => exact reach
  | ensureAbsent => exact reach
  | allocNull => exact reach
  | ensurePresent chunk after =>
      exact after.reach_resume.trans ((Nat.le_max_right _ _).trans reach)
  | installedElsewhere chunk new after => exact (Nat.le_max_right _ _).trans reach
  | vecReserve additional targetCap sum positive small =>
      have asked := reserves additional targetCap rfl sum
      have last := (chunkOf_bounds small).1
      have first := capacityBelow_mono (Nat.zero_le (chunkOf (targetCap - 1)))
      simp only [Pc.reach, AfterEnsure.reach]
      omega
  | _ => simp [Pc.reach]

theorem Pc.Answers.reach {res : Res K V E} (answers : pc.Answers dbg s res pc')
    : pc'.reach = 0 := by
  cases answers <;> simp [Pc.reach]

theorem Pc.Decrements.reach {needsDrop otherwise : Pc K V E} {idx : Nat}
    (decrements : pc.Decrements idx needsDrop otherwise)
    : needsDrop.reach = 0 ∧ otherwise.reach = 0 := by
  cases decrements <;> simp [Pc.reach]

theorem Op.Starts.reach {op : Op K} (starts : op.Starts s pc) : pc.reach = 0 := by
  cases starts <;> rfl

end

namespace Sys

/-- The elements that the allocated chunks have room for. -/
def footprint (s : Sys T K V E) : Nat :=
  ∑ chunk ∈ Finset.range CHUNKS with (s.chunks chunk).isSome, chunkCapacity chunk

/-- Chunks are there, or still to be installed, only where this many elements need them. -/
structure Modest (s : Sys T K V E) (bound : Nat) : Prop where
  chunks : ∀ chunk, (s.chunks chunk).isSome → capacityBelow chunk < bound
  reach : ∀ t, (s.pc t).reach ≤ bound

omit [Key K] in
/-- The chunks that are there have room for at most four times as many elements. -/
theorem Modest.footprint_le {s : Sys T K V E} {bound : Nat} (modest : s.Modest bound)
    : s.footprint ≤ 4 * bound + 28 := by
  rw [footprint]
  rcases (Finset.filter (fun chunk => (s.chunks chunk).isSome) (Finset.range CHUNKS)).eq_empty_or_nonempty
    with empty | nonempty
  · rw [empty]
    exact Nat.zero_le _
  · obtain ⟨last, member, most⟩ := Finset.exists_max_image _ id nonempty
    have present := (Finset.mem_filter.mp member).2
    have below := modest.chunks last present
    have next := capacityBelow_eq (last + 1)
    have this := capacityBelow_eq last
    have within : _ ≤ capacityBelow (last + 1) :=
      Finset.sum_le_sum_of_subset fun chunk member =>
        Finset.mem_range.mpr (Nat.lt_succ_of_le (most chunk member))
    rw [Nat.pow_succ] at next
    exact within.trans (by omega)

variable [DecidableEq T] {dbg : Bool} {s s' : Sys T K V E} {t : T} {bound : Nat}

omit [DecidableEq T] in
/-- The activity that steps, by cases on where it goes. -/
theorem Leads.reach {pc : Pc K V E} (leads : s.Leads dbg t pc) (reach : (s.pc t).reach ≤ bound)
    (pushes : s.pc t = .pushZeroed → s.len < bound) (small : s.len < 2 ^ 32)
    (reserves
      : ∀ additional targetCap, s.pc t = .vecReserve additional →
          addUsize dbg s.len additional = some targetCap → targetCap ≤ bound)
    : pc.reach ≤ bound := by
  cases leads with
  | stay => exact reach
  | go pc goes => exact goes.reach reach reserves
  | answered res pc answers => exact answers.reach ▸ Nat.zero_le _
  | began op pc calls starts => exact starts.reach ▸ Nat.zero_le _
  | released idx needsDrop otherwise decrements => exact decrements.reach.1 ▸ Nat.zero_le _
  | gaveUp idx needsDrop otherwise decrements => exact decrements.reach.2 ▸ Nat.zero_le _
  | pushed about =>
      have room := pushes about
      have start := (chunkOf_bounds small).1
      simp only [Pc.reach, AfterEnsure.reach]
      omega
  | allocated chunk buffer after about =>
      rw [about] at reach
      exact reach
  | ensured after about =>
      refine after.reach_resume.trans ?_
      rcases about with ⟨chunk, new, about⟩ | ⟨new, about⟩
      · rw [about] at reach
        exact (Nat.le_max_right _ _).trans reach
      · rw [about] at reach
        exact reach
  | _ => simp [Pc.reach]

variable [Fintype T]

/-- A step within the limits in which a reservation asks for no more than this many elements. -/
def ModestNext (dbg : Bool) (bound : Nat) (s s' : Sys T K V E) : Prop :=
  ∃ t choice,
    s.Within t
    ∧ (∀ additional targetCap, s.pc t = .vecReserve additional →
        addUsize dbg s.len additional = some targetCap → targetCap ≤ bound)
    ∧ step dbg s t choice = some s'

/-- Such a step asks for no more than the length and the bound. -/
theorem Modest.next (modest : s.Modest (max s.len bound)) (inside : s.len < 2 ^ 32)
    (next : ModestNext dbg bound s s')
    : s'.Modest (max s'.len bound) := by
  obtain ⟨t, choice, within, reserves, found⟩ := next
  have moves := step_moves found
  have grown := moves.len_le within
  have wider : max s.len bound ≤ max s'.len bound := max_le_max_right _ grown
  refine ⟨fun chunk present => ?_, fun other => ?_⟩
  · have kept (before : (s.chunks chunk).isSome) : capacityBelow chunk < max s'.len bound :=
      Nat.lt_of_lt_of_le (modest.chunks chunk before) wider
    cases moves.stores with
    | kept chunks => exact kept (chunks ▸ present)
    | allocated _ _ _ reached =>
        rw [reached] at present
        exact kept present
    | installed here new after about _ reached =>
        by_cases same : chunk = here
        · subst same
          have reach := modest.reach t
          rw [about] at reach
          exact Nat.lt_of_lt_of_le ((Nat.le_max_left _ _).trans reach) wider
        · refine kept ?_
          rw [reached] at present
          exact (Function.update_of_ne same new s.chunks) ▸ present
  · by_cases self : other = t
    · subst self
      refine moves.leads.reach ((modest.reach other).trans wider) (fun about => ?_) inside
        fun additional targetCap about sum =>
          (reserves additional targetCap about sum).trans (Nat.le_max_right _ _)
      have longer : s'.len = s.len + 1 := by
        simp only [step, about] at found
        cases Choice.eq_of_onGo found
        exact Nat.mod_eq_of_lt (within.room about)
      exact Nat.lt_of_lt_of_le (Nat.lt_succ_self _) (longer ▸ Nat.le_max_left _ _)
    · rw [moves.others other self]
      exact (modest.reach other).trans wider

/-- A run of such steps is within the limits. -/
theorem ModestNext.next (next : ModestNext dbg bound s s') : Next dbg s s' := by
  obtain ⟨t, choice, within, _, found⟩ := next
  exact ⟨t, choice, within, found⟩

/-- Every state of such a run asks for no more, by induction on the run. -/
theorem modest_of_run (run : Relation.ReflTransGen (ModestNext dbg bound) (.withKey T K V E) s)
    : Reachable dbg s ∧ s.Modest (max s.len bound) := by
  induction run with
  | refl => exact ⟨.refl, nofun, fun _ => Nat.zero_le _⟩
  | tail _ next ih =>
      obtain ⟨free, inv⟩ := ih.1.inv
      exact ⟨ih.1.tail next.next, ih.2.next inv.owned.bound next⟩

/-- The check that a reservation asks for no more than this many elements. -/
def modest? (dbg : Bool) (bound : Nat) (s : Sys T K V E) (t : T) : Bool :=
  match s.pc t with
  | .vecReserve additional => (addUsize dbg s.len additional).all (· ≤ bound)
  | _ => true

omit [Key K] in
omit [DecidableEq T] [Fintype T] in
theorem modest_of_modest? (checked : s.modest? dbg bound t = true) {additional targetCap : Nat}
    (about : s.pc t = .vecReserve additional)
    (sum : addUsize dbg s.len additional = some targetCap)
    : targetCap ≤ bound := by
  simpa [modest?, about, sum] using checked

end Sys

open Sys in
/-- In every run in which reservations ask for at most `bound` elements, whatever panics or fails to
be allocated, the chunks have room for at most four times the length or that bound, and a first
chunk. If nothing panics the length is no more than the peak of the slots in use and the insertions
about to claim an index, so the memory is bounded by four times what was needed at once.
-/
theorem footprint_bounded [DecidableEq T] [Fintype T] {dbg : Bool} {bound : Nat}
    {s : Sys T K V E} {earlier : List (Sys T K V E)}
    (path : Library.Path (ModestNext dbg bound) (.withKey T K V E) (s :: earlier))
    : s.footprint ≤ 4 * max s.len bound + 28
      ∧ (Library.Path (CalmNext dbg) (.withKey T K V E) (s :: earlier) →
          s.footprint ≤ 4 * max (Library.peak demand (s :: earlier)) bound + 28) := by
  have footprint := (modest_of_run (path.run s rfl)).2.footprint_le
  refine ⟨footprint, fun calm => ?_⟩
  have length := len_le_peak calm s rfl
  exact footprint.trans (by omega)

/-- A single activity reserves room for more elements than the first chunk has. -/
def reserveTwoChunks : List (Unit × Choice UInt64 Nat Empty) :=
  Sys.turns () (.call (.reserve 33) :: List.replicate 10 .go)

open Sys in
/-- In that run the bound is reached. -/
theorem footprint_bounded_reserveTwoChunks
    : ∃ (s : Sys Unit UInt64 Nat Empty) (earlier : List (Sys Unit UInt64 Nat Empty)),
        Library.Path (ModestNext true 33) (.withKey Unit UInt64 Nat Empty) (s :: earlier)
        ∧ s.footprint = 4 * 33 + 28
        ∧ s.footprint ≤ 4 * max s.len 33 + 28
        ∧ s.footprint ≤ 4 * max (Library.peak demand (s :: earlier)) 33 + 28 := by
  have found : (Sys.runIf (fun s t => (s.within? t && s.modest? true 33 t) && s.calm?) true
      (.withKey Unit UInt64 Nat Empty) reserveTwoChunks).map
      (fun s => (s.calm?, s.footprint)) = some (true, 160) := by decide +kernel
  obtain ⟨s, reached, after⟩ := Option.map_eq_some_iff.mp found
  simp only [Prod.mk.injEq] at after
  obtain ⟨calm, full⟩ := after
  obtain ⟨earlier, path⟩ := Library.Path.of_run (awake_of_runIf reached calm).2
  have modest : Library.Path (ModestNext true 33) (.withKey Unit UInt64 Nat Empty)
      (s :: earlier) := by
    refine path.mono ?_
    rintro before after ⟨t, choice, checked, found, _⟩
    have checks := Bool.and_eq_true_iff.mp checked
    exact ⟨t, choice, within_of_within? checks.1, fun _ _ => modest_of_modest? checks.2, found⟩
  have calmly : Library.Path (CalmNext true) (.withKey Unit UInt64 Nat Empty)
      (s :: earlier) := by
    refine path.mono ?_
    rintro before after ⟨t, choice, checked, found, awake⟩
    have checks := Bool.and_eq_true_iff.mp checked
    exact ⟨t, choice, within_of_within? checks.1, found, awake⟩
  obtain ⟨bounded, peak⟩ := footprint_bounded modest
  exact ⟨s, earlier, modest, full, bounded, peak calmly⟩

end AtomicSlotMap
