import AtomicSlotMap.Ownership.Simulation

/-! Values are only written to allocated chunks, and an allocated chunk stays. -/

namespace AtomicSlotMap

variable {T K V E : Type} [Key K]

omit [Key K] in
/-- Whether the chunk of an index is allocated. -/
def Sys.present (s : Sys T K V E) (idx : Nat) : Prop := (s.chunks (chunkOf idx)).isSome

omit [Key K] in
/-- An activity that writes a value next knows that its chunk is allocated, having waited for
it.
-/
def Pc.Placed (known : Nat → Prop) : Pc K V E → Prop
  | .waitForChunk idx next => next.Placed fun other => known other ∨ other = idx
  | .assertRefCount _ next | .assertVersion _ next => next.Placed known
  | .insertWrite idx _ _ => known idx
  | _ => True

omit [Key K] in
/-- Every value lies in an allocated chunk. -/
structure Sys.Placed (s : Sys T K V E) : Prop where
  values : ∀ idx, (s.slots idx).data ≠ none → s.present idx
  pcs : ∀ t, (s.pc t).Placed s.present

section

variable {s s' : Sys T K V E} {dbg : Bool}

omit [Key K] in
/-- Knowing more is no harm, by induction on the waits. -/
theorem Pc.Placed.mono {known known' : Nat → Prop} {pc : Pc K V E} (placed : pc.Placed known)
    (more : ∀ idx, known idx → known' idx)
    : pc.Placed known' := by
  induction pc generalizing known known' with
  | waitForChunk idx next ih => exact ih placed fun other => Or.imp_left (more other)
  | assertRefCount _ next ih => exact ih placed more
  | assertVersion _ next ih => exact ih placed more
  | insertWrite idx version value => exact more idx placed
  | _ => trivial

omit [Key K] in
theorem Pc.placed_exclusivelyOwned {known : Nat → Prop} {idx : Nat} (next : Pc K V E)
    (placed : next.Placed known)
    : (Pc.exclusivelyOwned dbg idx next).Placed known := by
  cases dbg <;> exact placed

omit [Key K] in
theorem Pc.placed_pushFreeIndex {known : Nat → Prop} {idx : Nat} {after : AfterPush K E}
    : (Pc.pushFreeIndex dbg idx after : Pc K V E).Placed known :=
  Pc.placed_exclusivelyOwned (.pushLoad idx after) trivial

omit [Key K] in
theorem Getter.placed_missed {known : Nat → Prop} (getter : Getter)
    : (getter.missed : Pc K V E).Placed known := by
  cases getter <;> trivial

omit [Key K] in
theorem AfterPush.placed_resume {known : Nat → Prop} (after : AfterPush K E)
    : (after.resume : Pc K V E).Placed known := by
  cases after with
  | missed getter => exact getter.placed_missed
  | _ => trivial

omit [Key K] in
theorem AfterEnsure.placed_resume {known : Nat → Prop} (after : AfterEnsure)
    : (after.resume : Pc K V E).Placed known := by
  cases after with
  | pushed idx => trivial
  | reserving chunk maxChunk =>
      simp only [AfterEnsure.resume]
      split <;> trivial

omit [Key K] in
theorem Pc.placed_popLoop {known : Nat → Prop} (head updates : Nat)
    : (Pc.popLoop head updates : Pc K V E).Placed known := by
  rw [Pc.popLoop]
  split <;> trivial

/-- A move of a program counter keeps what it must know, by cases on the move. -/
theorem Pc.Goes.placed {pc pc' : Pc K V E} (goes : pc.Goes dbg s pc')
    (placed : pc.Placed s.present)
    : pc'.Placed s.present := by
  cases goes with
  | arrived idx next present =>
      refine Pc.Placed.mono placed fun other known => ?_
      rcases known with known | rfl
      · exact known
      · exact present
  | unreferenced idx next zero => exact placed
  | unoccupied idx next even => exact placed
  | popLoad => exact Pc.placed_popLoop _ _
  | popAgain old next seen => exact Pc.placed_popLoop _ _
  | closureOk idx version value =>
      exact Pc.placed_exclusivelyOwned (.insertWrite idx version value) (Or.inr rfl)
  | ensurePresent chunk after present => exact after.placed_resume
  | _ => trivial

theorem Pc.Answers.placed {known : Nat → Prop} {pc pc' : Pc K V E} {res : Res K V E}
    (answers : pc.Answers dbg s res pc')
    : pc'.Placed known := by
  cases answers with
  | closureErr idx version err => exact Pc.placed_pushFreeIndex
  | _ => trivial

theorem Op.Starts.placed {known : Nat → Prop} {op : Op K} {pc : Pc K V E}
    (starts : op.Starts s pc)
    : pc.Placed known := by
  cases starts <;> trivial

theorem Pc.Decrements.placed {known : Nat → Prop} {pc needsDrop otherwise : Pc K V E}
    {idx : Nat} (decrements : pc.Decrements idx needsDrop otherwise)
    : needsDrop.Placed known ∧ otherwise.Placed known := by
  cases decrements with
  | acquire key getter => exact ⟨trivial, getter.placed_missed⟩
  | _ => exact ⟨trivial, trivial⟩

end

namespace Sys

variable [DecidableEq T] {s s' : Sys T K V E} {t : T} {dbg : Bool}

omit [Key K] [DecidableEq T] in
/-- A step keeps values in allocated chunks if it frees none, writes none elsewhere, and its
new locals know what they must.
-/
theorem Placed.advance (placed : s.Placed) (grow : ∀ idx, s.present idx → s'.present idx)
    (data : ∀ idx, (s'.slots idx).data ≠ none → (s.slots idx).data ≠ none ∨ s.present idx)
    (pcs : ∀ other ≠ t, s'.pc other = s.pc other) (mine : (s'.pc t).Placed s.present)
    : s'.Placed where
  values := fun idx some => grow idx ((data idx some).elim (placed.values idx) id)
  pcs := by
    intro other
    by_cases self : other = t
    · subst other
      exact mine.mono grow
    · rw [pcs other self]
      exact (placed.pcs other).mono grow

omit [Key K] in
/-- A step that only changes program counters, the history and the like. -/
theorem Placed.advance_same (placed : s.Placed) {pc : Pc K V E} (chunks : s'.chunks = s.chunks)
    (slots : s'.slots = s.slots) (pcs : s'.pc = Function.update s.pc t pc)
    (mine : pc.Placed s.present)
    : s'.Placed := by
  refine placed.advance (t := t) ?_ ?_ ?_ ?_
  · intro idx present
    rw [Sys.present, chunks]
    exact present
  · intro idx some
    rw [slots] at some
    exact Or.inl some
  · intro other self
    rw [pcs, Function.update_of_ne self]
  · rw [pcs, Function.update_self]
    exact mine

omit [Key K] in
/-- A step on one slot that writes no value there, or one to an allocated chunk. -/
theorem Placed.advance_slot (placed : s.Placed) {idx : Nat} {slot : Slot V} {pc : Pc K V E}
    (chunks : s'.chunks = s.chunks) (slots : s'.slots = Function.update s.slots idx slot)
    (data : slot.data ≠ none → (s.slots idx).data ≠ none ∨ s.present idx)
    (pcs : s'.pc = Function.update s.pc t pc) (mine : pc.Placed s.present)
    : s'.Placed := by
  refine placed.advance (t := t) ?_ ?_ ?_ ?_
  · intro other present
    rw [Sys.present, chunks]
    exact present
  · intro other some
    rw [slots] at some
    by_cases same : other = idx
    · subst other
      rw [Function.update_self] at some
      exact data some
    · rw [Function.update_of_ne same] at some
      exact Or.inl some
  · intro other self
    rw [pcs, Function.update_of_ne self]
  · rw [pcs, Function.update_self]
    exact mine

/-- Every move keeps values in allocated chunks, by cases on the move. -/
theorem Placed.moves (placed : s.Placed) (moves : s.Moves dbg t s') : s'.Placed := by
  have mine := placed.pcs t
  cases moves with
  | stay => exact placed
  | go pc goes => exact placed.advance_same rfl rfl rfl (goes.placed mine)
  | answered res pc answers =>
      rw [answer_eq]
      exact placed.advance_same rfl rfl rfl answers.placed
  | failed fails =>
      rw [unwind_eq]
      exact placed.advance_same rfl rfl rfl trivial
  | popped old next seen about same =>
      exact placed.advance_same rfl rfl rfl (Pc.placed_exclusivelyOwned _ trivial)
  | pushed | counted | discounted | allocated => exact placed.advance_same rfl rfl rfl trivial
  | wrote idx version value about =>
      rw [about] at mine
      exact placed.advance_slot rfl rfl (fun _ => Or.inr mine) rfl trivial
  | armed | linked | acquired => exact placed.advance_slot rfl rfl Or.inl rfl trivial
  | published idx version stored about =>
      rw [publish, answer_eq]
      exact placed.advance_slot rfl rfl Or.inl rfl trivial
  | installed chunk new after about absent =>
      refine placed.advance (t := t) ?_ (fun _ => Or.inl) ?_ ?_
      · intro idx present
        simp only [Sys.present, goto, emit, setChunk] at present ⊢
        by_cases same : chunkOf idx = chunk
        · rw [same, absent] at present
          cases present
        · rwa [Function.update_of_ne same]
      · intro other self
        exact pc_goto_of_ne _ t self _
      · rw [pc_goto_self]
        exact after.placed_resume
  | deallocated new after about =>
      exact placed.advance_same rfl rfl rfl after.placed_resume
  | recycled idx old after about same =>
      exact placed.advance_same rfl rfl rfl after.placed_resume
  | dropped idx after about =>
      exact placed.advance_slot rfl rfl (fun some => absurd rfl some) rfl
        Pc.placed_pushFreeIndex
  | dropPanicked idx after about =>
      rw [unwind_eq]
      exact placed.advance_slot rfl rfl (fun some => absurd rfl some) rfl trivial
  | retired key current about same =>
      rw [removeExchange, if_pos same, answer_eq]
      exact placed.advance_slot rfl rfl Or.inl rfl trivial
  | decremented idx needsDrop otherwise decrements =>
      rw [decRefCount]
      split
      · exact placed.advance_slot rfl rfl Or.inl rfl decrements.placed.1
      · exact placed.advance_slot rfl rfl Or.inl rfl decrements.placed.2
  | guarded key getter about same =>
      simp only [acquireCheck, if_pos same]
      rw [answer_eq]
      exact placed.advance_same rfl rfl rfl trivial
  | cloned guard about =>
      simp only [cloneGuard]
      split
      · rw [answer_eq]
        exact placed.advance_slot rfl rfl Or.inl rfl trivial
      · rw [unwind_eq]
        exact placed.advance_slot rfl rfl Or.inl rfl trivial
  | began op pc calls starts => exact placed.advance_same rfl rfl rfl starts.placed
  | beganReserve | beganDeref | beganDrop | beganForget =>
      rw [answer_eq]
      exact placed.advance_same rfl rfl rfl trivial
  | returned res about =>
      rw [finish_eq]
      exact placed.advance_same rfl rfl rfl (by cases res <;> trivial)
  | unwound about =>
      rw [finish_eq]
      exact placed.advance_same rfl rfl rfl trivial

variable [Fintype T]

/-- In every reachable state values lie in allocated chunks, by induction on the run. -/
theorem Reachable.placed (reachable : Reachable dbg s) : s.Placed := by
  refine Library.ReflTransGen.invariant reachable ⟨fun _ some => absurd rfl some, fun _ => trivial⟩ ?_
  rintro before after placed ⟨t, choice, _, found⟩
  exact placed.moves (step_moves found)

end Sys

end AtomicSlotMap
