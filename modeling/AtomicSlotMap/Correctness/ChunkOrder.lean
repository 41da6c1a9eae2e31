import AtomicSlotMap.History.Solo
import AtomicSlotMap.Implementation.Turns
import Mathlib.Order.Interval.Finset.Nat

/-! The order in which chunks are allocated. An index is claimed in one step and its chunk is
allocated in later ones, so a chunk may appear before the one below it, once enough claims are
pending to fill the lower one.
-/

namespace AtomicSlotMap

variable {T K V E : Type} [Key K]

namespace Sys

/-- The allocated chunks are a prefix: below a chunk there is no missing one. -/
def ChunksInOrder (s : Sys T K V E) : Prop :=
  ∀ chunk, (s.chunks chunk).isSome → ∀ lower < chunk, (s.chunks lower).isSome

end Sys

/-- The index whose chunk `ensure_chunk_exists` is called for by `push_zeroed`. -/
def AfterEnsure.claims : AfterEnsure → Option Nat
  | .pushed idx => some idx
  | .reserving _ _ => none

/-- The index that an activity has claimed without knowing that its chunk is there. -/
def Pc.claims : Pc K V E → Option Nat
  | .ensureLoad _ after | .ensureAlloc _ after | .ensureCas _ _ after => after.claims
  | _ => none

/-- The chunk that `ensure_chunk_exists` is called with. A reservation has seen to all chunks
below it.
-/
def AfterEnsure.About (present : Nat → Prop) (chunk : Nat) : AfterEnsure → Prop
  | .pushed idx => chunk = chunkOf idx
  | .reserving current _ => chunk = current ∧ ∀ lower < current, present lower

/-- What holds once `ensure_chunk_exists` returns. -/
def AfterEnsure.Ensured (present : Nat → Prop) : AfterEnsure → Prop
  | .pushed idx => present (chunkOf idx)
  | .reserving current _ => ∀ lower ≤ current, present lower

/-- Where an activity stands in `ensure_chunk_exists`, if the allocator does not fail. -/
def Pc.Ensures (present : Nat → Prop) : Pc K V E → Prop
  | .waitForChunk _ next | .assertRefCount _ next | .assertVersion _ next =>
      next.claims = none ∧ next.Ensures present
  | .ensureLoad chunk after | .ensureAlloc chunk after => after.About present chunk
  | .ensureCas chunk new after => new.isSome ∧ after.About present chunk
  | .ensureDealloc _ after => after.Ensured present
  | _ => True

section

variable {dbg : Bool} {s : Sys T K V E} {present present' : Nat → Prop} {pc pc' : Pc K V E}

theorem AfterEnsure.About.ensured {after : AfterEnsure} {chunk : Nat}
    (about : after.About present chunk) (found : present chunk)
    : after.Ensured present := by
  cases after with
  | pushed idx =>
      have same : chunk = chunkOf idx := about
      subst same
      exact found
  | reserving current maxChunk =>
      obtain ⟨rfl, lower⟩ := about
      intro other within
      rcases Nat.lt_or_eq_of_le within with less | rfl
      · exact lower other less
      · exact found

theorem AfterEnsure.Ensured.claimed {after : AfterEnsure} (ensured : after.Ensured present)
    {idx : Nat} (claims : after.claims = some idx)
    : present (chunkOf idx) := by
  cases after with
  | pushed other =>
      cases claims
      exact ensured
  | reserving current maxChunk => cases claims

omit [Key K] in
theorem AfterEnsure.Ensured.resume {after : AfterEnsure} (ensured : after.Ensured present)
    : (after.resume : Pc K V E).Ensures present ∧ (after.resume : Pc K V E).claims = none := by
  cases after with
  | pushed idx => exact ⟨trivial, rfl⟩
  | reserving current maxChunk =>
      simp only [AfterEnsure.resume]
      split
      · exact ⟨⟨rfl, fun lower less => ensured lower (Nat.le_of_lt_succ less)⟩, rfl⟩
      · exact ⟨trivial, rfl⟩

theorem AfterEnsure.About.mono {after : AfterEnsure} {chunk : Nat}
    (about : after.About present chunk) (more : ∀ chunk, present chunk → present' chunk)
    : after.About present' chunk := by
  cases after with
  | pushed idx => exact about
  | reserving current maxChunk => exact ⟨about.1, fun lower less => more _ (about.2 lower less)⟩

omit [Key K] in
/-- More chunks do no harm, by induction on the waits. -/
theorem Pc.Ensures.mono (ensures : pc.Ensures present)
    (more : ∀ chunk, present chunk → present' chunk)
    : pc.Ensures present' := by
  induction pc with
  | waitForChunk _ next ih => exact ⟨ensures.1, ih ensures.2⟩
  | assertRefCount _ next ih => exact ⟨ensures.1, ih ensures.2⟩
  | assertVersion _ next ih => exact ⟨ensures.1, ih ensures.2⟩
  | ensureLoad chunk after | ensureAlloc chunk after => exact AfterEnsure.About.mono ensures more
  | ensureCas chunk new after => exact ⟨ensures.1, ensures.2.mono more⟩
  | ensureDealloc new after =>
      cases after with
      | pushed idx => exact more _ ensures
      | reserving current maxChunk => exact fun lower within => more _ (ensures lower within)
  | _ => trivial

/-- A continuation in which nothing has been claimed. -/
def Pc.Unclaiming (present : Nat → Prop) (pc : Pc K V E) : Prop :=
  pc.claims = none ∧ pc.Ensures present

omit [Key K] in
theorem Pc.unclaiming_exclusivelyOwned {idx : Nat} {next : Pc K V E}
    (unclaiming : next.Unclaiming present)
    : (Pc.exclusivelyOwned dbg idx next).Unclaiming present := by
  cases dbg with
  | false => exact unclaiming
  | true => exact ⟨rfl, rfl, unclaiming⟩

omit [Key K] in
theorem Pc.unclaiming_pushFreeIndex {idx : Nat} {after : AfterPush K E}
    : (Pc.pushFreeIndex dbg idx after : Pc K V E).Unclaiming present :=
  have pushing : (Pc.pushLoad idx after : Pc K V E).Unclaiming present := ⟨rfl, trivial⟩
  ⟨rfl, Pc.unclaiming_exclusivelyOwned pushing⟩

omit [Key K] in
theorem Pc.unclaiming_popLoop {head updates : Nat}
    : (Pc.popLoop head updates : Pc K V E).Unclaiming present := by
  rw [Pc.popLoop]
  split
  · exact ⟨rfl, trivial⟩
  · exact ⟨rfl, rfl, trivial⟩

omit [Key K] in
theorem Getter.unclaiming_missed (getter : Getter)
    : (getter.missed : Pc K V E).Unclaiming present := by
  cases getter <;> exact ⟨rfl, trivial⟩

omit [Key K] in
theorem AfterPush.unclaiming_resume (after : AfterPush K E)
    : (after.resume : Pc K V E).Unclaiming present := by
  cases after with
  | missed getter => exact getter.unclaiming_missed
  | _ => exact ⟨rfl, trivial⟩

omit [Key K] in
theorem Res.unclaiming_rest (res : Res K V E) : res.rest.Unclaiming present := by
  cases res <;> exact ⟨rfl, trivial⟩

/-- An activity goes on and keeps its claim unless the chunk is there. -/
def Pc.GoesOn (present : Nat → Prop) (pc pc' : Pc K V E) : Prop :=
  pc'.Ensures present
  ∧ (pc'.claims = pc.claims
    ∨ pc'.claims = none ∧ ∀ idx, pc.claims = some idx → present (chunkOf idx))

omit [Key K] in
theorem Pc.Unclaiming.goesOn (unclaiming : pc'.Unclaiming present) (before : pc.claims = none)
    : pc.GoesOn present pc' :=
  ⟨unclaiming.2, Or.inl (unclaiming.1.trans before.symm)⟩

omit [Key K] in
/-- `ensure_chunk_exists` returns. -/
theorem AfterEnsure.Ensured.goesOn {after : AfterEnsure} (ensured : after.Ensured present)
    (claims : ∀ idx, pc.claims = some idx → after.claims = some idx)
    : pc.GoesOn present after.resume :=
  ⟨ensured.resume.1, Or.inr ⟨ensured.resume.2, fun idx claimed => ensured.claimed (claims idx claimed)⟩⟩

/-- A move of a program counter, by cases on the move. -/
theorem Pc.Goes.goesOn (goes : pc.Goes dbg s pc')
    (supplied : ∀ chunk after, pc = .ensureAlloc chunk after → pc' ≠ .ensureCas chunk none after)
    (ensures : pc.Ensures fun chunk => (s.chunks chunk).isSome)
    : pc.GoesOn (fun chunk => (s.chunks chunk).isSome) pc' := by
  cases goes with
  | arrived | unreferenced | unoccupied => exact ⟨ensures.2, Or.inl ensures.1⟩
  | popLoad | popAgain => exact Pc.unclaiming_popLoop.goesOn rfl
  | closureOk idx version value =>
      exact Pc.Unclaiming.goesOn ⟨rfl, Pc.unclaiming_exclusivelyOwned ⟨rfl, trivial⟩⟩ rfl
  | ensurePresent chunk after present =>
      exact (AfterEnsure.About.ensured ensures present).goesOn fun _ => id
  | ensureAbsent chunk after absent => exact ⟨ensures, Or.inl rfl⟩
  | allocNull chunk after => exact absurd rfl (supplied chunk after rfl)
  | installedElsewhere chunk new after present =>
      have ensured := ensures.2.ensured (Option.isSome_iff_ne_none.mpr present)
      exact ⟨ensured, Or.inr ⟨rfl, fun idx => ensured.claimed⟩⟩
  | vecReserve => exact ⟨⟨rfl, nofun⟩, Or.inl rfl⟩
  | removeFound | getFound | containsFound | nextFound => exact ⟨⟨rfl, trivial⟩, Or.inl rfl⟩
  | _ => exact ⟨trivial, Or.inl rfl⟩

theorem Pc.Answers.unclaiming {res : Res K V E} (answers : pc.Answers dbg s res pc')
    : pc.claims = none ∧ pc'.Unclaiming present := by
  cases answers with
  | closureErr idx version err => exact ⟨rfl, Pc.unclaiming_pushFreeIndex⟩
  | _ => exact ⟨rfl, rfl, trivial⟩

theorem Op.Starts.unclaiming {op : Op K} (starts : op.Starts s pc) : pc.Unclaiming present := by
  cases starts <;> first | exact ⟨rfl, trivial⟩ | exact ⟨rfl, rfl, trivial⟩

omit [Key K] in
theorem Pc.Calls.unclaiming {op : Op K} (calls : pc.Calls op) : pc.claims = none := by
  rcases calls with ⟨rfl, _⟩ | ⟨_, rfl, _⟩ <;> rfl

theorem Pc.Decrements.unclaiming {needsDrop otherwise : Pc K V E} {idx : Nat}
    (decrements : pc.Decrements idx needsDrop otherwise)
    : needsDrop.Unclaiming present ∧ otherwise.Unclaiming present := by
  cases decrements with
  | remove => exact ⟨⟨rfl, trivial⟩, rfl, trivial⟩
  | acquire key getter => exact ⟨⟨rfl, trivial⟩, getter.unclaiming_missed⟩
  | unguard => exact ⟨⟨rfl, rfl, trivial⟩, rfl, trivial⟩

theorem Pc.Decrements.claims {needsDrop otherwise : Pc K V E} {idx : Nat}
    (decrements : pc.Decrements idx needsDrop otherwise)
    : pc.claims = none := by
  cases decrements <;> rfl

/-- Only a failed allocation panics inside `ensure_chunk_exists`, by cases on the panic. -/
theorem Pc.Fails.unclaiming (fails : pc.Fails dbg s)
    (served : ∀ chunk after, pc = .ensureAlloc chunk after → after.claims = none)
    : pc.claims = none := by
  cases fails with
  | layoutOverflow chunk after => exact served chunk after rfl
  | _ => rfl

end

namespace Sys

variable [DecidableEq T] {dbg : Bool} {s s' : Sys T K V E} {t : T}

/-- The allocator serves an activity that asks for a buffer, or it panics where no index has been
claimed.
-/
def Served (s : Sys T K V E) (t : T) (s' : Sys T K V E) : Prop :=
  ∀ chunk after, s.pc t = .ensureAlloc chunk after →
    (∃ buffer, s'.pc t = .ensureCas chunk (some buffer) after)
    ∨ s'.pc t = .unwinding ∧ after.claims = none

/-- What a step that is served does to the chunks and to the claims. -/
inductive Chunked (s : Sys T K V E) (t : T) (s' : Sys T K V E) : Prop
  | going (chunks : s'.chunks = s.chunks) (len : s'.len = s.len)
    (handed : handedOut s'.trace = handedOut s.trace)
    (goes : (s.pc t).GoesOn (fun chunk => (s.chunks chunk).isSome) (s'.pc t))
  | pushed (about : s.pc t = .pushZeroed) (reached : s' = s.pushZeroed t)
  | installed (chunk buffer : Nat) (after : AfterEnsure)
    (about : s.pc t = .ensureCas chunk (some buffer) after)
    (reached
      : s' = ((s.setChunk chunk (some buffer)).emit (.installed t chunk (some buffer))).goto t
          after.resume)

omit [Key K] [DecidableEq T] in
theorem chunks_answer (s : Sys T K V E) (t : T) (res : Res K V E)
    : (s.answer t res).chunks = s.chunks :=
  (alike_answer s t res).chunks

omit [Key K] in
theorem chunks_finish (s : Sys T K V E) (t : T) (event : Nat → HistoryEvent K V E)
    : (s.finish t event).chunks = s.chunks :=
  (alike_finish s t event).chunks

omit [Key K] in
theorem chunks_unwind (s : Sys T K V E) (t : T) : (s.unwind t).chunks = s.chunks :=
  (alike_unwind s t).chunks

/-- What a step does to the memory of the vector. -/
inductive Stores (s : Sys T K V E) (t : T) (s' : Sys T K V E) : Prop
  | kept (chunks : s'.chunks = s.chunks) (buffers : s'.buffers = s.buffers)
  | allocated (chunk : Nat) (after : AfterEnsure) (about : s.pc t = .ensureAlloc chunk after)
    (reached
      : s' = ({ s with buffers := s.buffers + 1 }.emit
          (.allocated t chunk s.buffers (chunkCapacity chunk))).goto t
            (.ensureCas chunk (some s.buffers) after))
  | installed (chunk : Nat) (new : Option Nat) (after : AfterEnsure)
    (about : s.pc t = .ensureCas chunk new after) (absent : s.chunks chunk = none)
    (reached
      : s' = ((s.setChunk chunk new).emit (.installed t chunk new)).goto t after.resume)

/-- Only `ensure_chunk_exists` changes the memory of the vector, by cases on the move. -/
theorem Moves.stores (moves : s.Moves dbg t s') : s.Stores t s' := by
  cases moves with
  | allocated chunk after about => exact .allocated chunk after about rfl
  | installed chunk new after about absent => exact .installed chunk new after about absent rfl
  | stay | go | popped | pushed | wrote | armed | deallocated | linked | recycled | dropped
  | acquired | began | counted | discounted => exact .kept rfl rfl
  | answered | published | beganReserve | beganDeref | beganDrop | beganForget =>
      exact .kept (chunks_answer _ t _) (alike_answer _ t _).buffers
  | returned | unwound => exact .kept (chunks_finish s t _) (alike_finish s t _).buffers
  | failed | dropPanicked => exact .kept (chunks_unwind _ t) (alike_unwind _ t).buffers
  | retired key current about same =>
      rw [removeExchange, if_pos same]
      exact .kept (chunks_answer _ t _) (alike_answer _ t _).buffers
  | decremented =>
      rw [decRefCount]
      split <;> exact .kept rfl rfl
  | guarded key getter about same =>
      simp only [acquireCheck, if_pos same]
      exact .kept (chunks_answer _ t _) (alike_answer _ t _).buffers
  | cloned guard about =>
      rw [cloneGuard]
      generalize wrappingAdd (s.slots (KeyData.idx guard.key)).refCount 1 = count
      dsimp only
      split
      · exact .kept (chunks_answer _ t _) (alike_answer _ t _).buffers
      · exact .kept (chunks_unwind _ t) (alike_unwind _ t).buffers

/-- A chunk that is there stays as it is. -/
theorem Moves.chunks_of_some (moves : s.Moves dbg t s') {chunk buffer : Nat}
    (found : s.chunks chunk = some buffer)
    : s'.chunks chunk = some buffer := by
  cases moves.stores with
  | kept chunks => rw [chunks, found]
  | allocated _ _ _ reached =>
      rw [reached]
      exact found
  | installed other new after _ absent reached =>
      have apart : chunk ≠ other := by
        rintro rfl
        rw [absent] at found
        cases found
      rw [reached]
      exact (Function.update_of_ne apart _ _).trans found

/-- However a run goes on, a chunk that is there stays as it is; by induction on the run. -/
theorem chunks_of_run [Fintype T] (run : Relation.ReflTransGen (Step dbg) s s')
    {chunk buffer : Nat} (found : s.chunks chunk = some buffer)
    : s'.chunks chunk = some buffer := by
  induction run with
  | refl => exact found
  | tail _ last ih =>
      obtain ⟨t, choice, found⟩ := last
      exact (step_moves found).chunks_of_some ih

theorem present_of_run [Fintype T] (run : Relation.ReflTransGen (Step dbg) s s') {chunk : Nat}
    (present : (s.chunks chunk).isSome)
    : (s'.chunks chunk).isSome := by
  obtain ⟨buffer, found⟩ := Option.isSome_iff_exists.mp present
  exact Option.isSome_of_eq_some (chunks_of_run run found)

omit [Key K] in
/-- Going on where nothing is claimed before and after. -/
theorem Chunked.unclaimed (chunks : s'.chunks = s.chunks) (len : s'.len = s.len)
    (handed : handedOut s'.trace = handedOut s.trace) {before after : Pc K V E}
    (about : s.pc t = before) (reached : s'.pc t = after) (claims : before.claims = none)
    (unclaiming : after.Unclaiming fun chunk => (s.chunks chunk).isSome)
    : s.Chunked t s' := by
  refine .going chunks len handed ?_
  rw [about, reached]
  exact unclaiming.goesOn claims

/-- Every step that is served is one of these, by cases on the move. -/
theorem Moves.chunked (moves : s.Moves dbg t s') (served : s.Served t s')
    (ensures : (s.pc t).Ensures fun chunk => (s.chunks chunk).isSome)
    : s.Chunked t s' := by
  rcases moves.pushes with ⟨len, handed⟩ | ⟨about, reached⟩
  case inr => exact .pushed about reached
  cases moves with
  | stay => exact .going rfl rfl rfl ⟨ensures, Or.inl rfl⟩
  | go pc goes =>
      refine .going rfl rfl rfl ?_
      rw [pc_goto_self]
      refine goes.goesOn (fun chunk after about none => ?_) ensures
      rcases served chunk after about with ⟨buffer, found⟩ | ⟨found, _⟩
      all_goals
        rw [pc_goto_self, none] at found
        cases found
  | answered res pc answers =>
      obtain ⟨claims, unclaiming⟩ := answers.unclaiming
      exact .unclaimed (chunks_answer s t res) len handed rfl (pc_goto_self _ t _) claims
        unclaiming
  | failed fails =>
      refine .unclaimed (chunks_unwind s t) len handed rfl (pc_unwind_self s t) ?_ ⟨rfl, trivial⟩
      refine fails.unclaiming fun chunk after about => ?_
      rcases served chunk after about with ⟨buffer, found⟩ | ⟨_, none⟩
      · rw [pc_unwind_self] at found
        cases found
      · exact none
  | popped old next seen about =>
      exact .unclaimed rfl rfl handed about (pc_goto_self _ t _) rfl
        (Pc.unclaiming_exclusivelyOwned ⟨rfl, rfl, trivial⟩)
  | pushed about => exact .pushed about rfl
  | wrote _ _ _ about | armed _ _ _ about | linked _ _ _ about | acquired _ _ _ about
  | counted _ _ about | discounted _ about =>
      exact .unclaimed rfl rfl handed about (pc_goto_self _ t _) rfl ⟨rfl, trivial⟩
  | published idx version stored about =>
      exact .unclaimed (chunks_answer _ t _) len handed about (pc_goto_self _ t _) rfl
        ⟨rfl, trivial⟩
  | allocated chunk after about =>
      rw [about] at ensures
      refine .going rfl rfl handed ?_
      rw [pc_goto_self, about]
      exact ⟨⟨rfl, ensures⟩, Or.inl rfl⟩
  | installed chunk new after about absent =>
      rw [about] at ensures
      obtain ⟨buffer, rfl⟩ := Option.isSome_iff_exists.mp ensures.1
      exact .installed chunk buffer after about rfl
  | deallocated new after about =>
      rw [about] at ensures
      refine .going rfl rfl handed ?_
      rw [pc_goto_self, about]
      exact AfterEnsure.Ensured.goesOn ensures nofun
  | recycled idx old after about =>
      exact .unclaimed rfl rfl handed about (pc_goto_self _ t _) rfl after.unclaiming_resume
  | dropped idx after about =>
      exact .unclaimed rfl rfl handed about (pc_goto_self _ t _) rfl Pc.unclaiming_pushFreeIndex
  | dropPanicked idx after about =>
      exact .unclaimed (chunks_unwind _ t) len handed about (pc_unwind_self _ t) rfl
        ⟨rfl, trivial⟩
  | retired key current about same =>
      revert len handed
      simp only [removeExchange, if_pos same]
      intro len handed
      exact .unclaimed (chunks_answer _ t _) len handed about (pc_goto_self _ t _) rfl
        ⟨rfl, trivial⟩
  | decremented idx needsDrop otherwise decrements =>
      revert len handed
      rw [decRefCount]
      split
      · exact fun _ handed => .unclaimed rfl rfl handed rfl (pc_goto_self _ t _)
          decrements.claims decrements.unclaiming.1
      · exact fun _ handed => .unclaimed rfl rfl handed rfl (pc_goto_self _ t _)
          decrements.claims decrements.unclaiming.2
  | guarded key getter about same =>
      revert len handed
      simp only [acquireCheck, if_pos same]
      intro len handed
      exact .unclaimed (chunks_answer _ t _) len handed about (pc_goto_self _ t _) rfl
        ⟨rfl, trivial⟩
  | cloned guard about =>
      revert len handed
      rw [cloneGuard]
      generalize wrappingAdd (s.slots (KeyData.idx guard.key)).refCount 1 = count
      dsimp only
      split
      · exact fun len handed => .unclaimed (chunks_answer _ t _) len handed about
          (pc_goto_self _ t _) rfl ⟨rfl, trivial⟩
      · exact fun len handed => .unclaimed (chunks_unwind _ t) len handed about
          (pc_unwind_self _ t) rfl ⟨rfl, trivial⟩
  | began op pc calls starts =>
      exact .unclaimed rfl rfl handed rfl (pc_goto_self _ t _) calls.unclaiming
        starts.unclaiming
  | beganReserve _ calls | beganDeref _ _ calls =>
      exact .unclaimed (chunks_answer _ t _) len handed rfl (pc_goto_self _ t _)
        calls.unclaiming ⟨rfl, trivial⟩
  | beganForget _ _ calls =>
      exact .unclaimed (chunks_answer _ t _) len handed rfl (pc_goto_self _ t _)
        calls.unclaiming ⟨rfl, trivial⟩
  | beganDrop _ _ calls =>
      exact .unclaimed (chunks_answer _ t _) len handed rfl (pc_goto_self _ t _)
        calls.unclaiming ⟨rfl, rfl, trivial⟩
  | returned res about =>
      exact .unclaimed (chunks_finish s t _) len handed about (pc_goto_self _ t _) rfl
        res.unclaiming_rest
  | unwound about =>
      exact .unclaimed (chunks_finish s t _) len handed about (pc_goto_self _ t _) rfl
        ⟨rfl, trivial⟩

/-- Indices are handed out in order, and whoever claimed an index whose chunk is missing is
still about to allocate it.
-/
structure Claimed (s : Sys T K V E) : Prop where
  ensures : ∀ t, (s.pc t).Ensures fun chunk => (s.chunks chunk).isSome
  handed : ∀ t idx, (s.pc t).claims = some idx → idx ∈ handedOut s.trace
  served
    : ∀ idx ∈ handedOut s.trace,
        (s.chunks (chunkOf idx)).isSome ∨ ∃ t, (s.pc t).claims = some idx
  below : ∀ idx ∈ handedOut s.trace, ∀ lower < idx, lower ∈ handedOut s.trace
  filled : ∀ idx < s.len, idx ∈ handedOut s.trace
  small : ∀ idx ∈ handedOut s.trace, idx < 2 ^ 32

omit [Key K] [DecidableEq T] in
theorem Claimed.withKey : (Sys.withKey T K V E).Claimed where
  ensures := fun _ => trivial
  handed := nofun
  served := nofun
  below := nofun
  filled := nofun
  small := nofun

omit [Key K] [DecidableEq T] in
/-- An activity that goes on keeps the claims. -/
theorem Claimed.going (claimed : s.Claimed)
    (more : ∀ chunk, (s.chunks chunk).isSome → (s'.chunks chunk).isSome) (len : s'.len = s.len)
    (handed : handedOut s'.trace = handedOut s.trace) (others : ∀ u ≠ t, s'.pc u = s.pc u)
    (goes : (s.pc t).GoesOn (fun chunk => (s'.chunks chunk).isSome) (s'.pc t))
    : s'.Claimed where
  ensures := by
    intro u
    by_cases self : u = t
    · exact self ▸ goes.1
    · rw [others u self]
      exact (claimed.ensures u).mono more
  handed := by
    intro u idx claims
    rw [handed]
    by_cases self : u = t
    · subst u
      rcases goes.2 with same | ⟨none, _⟩
      · exact claimed.handed t idx (same ▸ claims)
      · rw [none] at claims
        cases claims
    · rw [others u self] at claims
      exact claimed.handed u idx claims
  served := by
    intro idx listed
    rw [handed] at listed
    rcases claimed.served idx listed with present | ⟨u, claims⟩
    · exact Or.inl (more _ present)
    · by_cases self : u = t
      · subst u
        rcases goes.2 with same | ⟨_, present⟩
        · exact Or.inr ⟨t, same.trans claims⟩
        · exact Or.inl (present idx claims)
      · exact Or.inr ⟨u, (congrArg Pc.claims (others u self)).trans claims⟩
  below := handed ▸ claimed.below
  filled := by
    rw [handed, len]
    exact claimed.filled
  small := handed ▸ claimed.small

omit [Key K] in
/-- An activity that claims the next index is about to allocate its chunk. -/
theorem Claimed.pushing (claimed : s.Claimed) (small : s.len < 2 ^ 32)
    (about : s.pc t = .pushZeroed)
    : (s.pushZeroed t).Claimed := by
  have handed : handedOut (s.pushZeroed t).trace = s.len :: handedOut s.trace := rfl
  have mine : (s.pushZeroed t).pc t = .ensureLoad (chunkOf s.len) (.pushed s.len) :=
    pc_goto_self _ t _
  have others (u : T) (apart : u ≠ t) : (s.pushZeroed t).pc u = s.pc u :=
    pc_goto_of_ne _ t apart _
  refine ⟨fun u => ?_, fun u idx claims => ?_, fun idx listed => ?_,
    fun idx listed lower less => ?_, fun idx less => ?_, fun idx listed => ?_⟩
  · by_cases self : u = t
    · subst u
      rw [mine]
      rfl
    · rw [others u self]
      exact claimed.ensures u
  · rw [handed]
    by_cases self : u = t
    · subst u
      rw [mine] at claims
      cases claims
      exact List.mem_cons_self
    · rw [others u self] at claims
      exact List.mem_cons_of_mem _ (claimed.handed u idx claims)
  · rw [handed] at listed
    rcases List.mem_cons.mp listed with rfl | before
    · exact Or.inr ⟨t, by rw [mine]; rfl⟩
    · rcases claimed.served idx before with present | ⟨u, claims⟩
      · exact Or.inl present
      · have self : u ≠ t := by
          rintro rfl
          rw [about] at claims
          cases claims
        exact Or.inr ⟨u, (congrArg Pc.claims (others u self)).trans claims⟩
  · rw [handed] at listed ⊢
    rcases List.mem_cons.mp listed with rfl | before
    · exact List.mem_cons_of_mem _ (claimed.filled lower less)
    · exact List.mem_cons_of_mem _ (claimed.below idx before lower less)
  · rw [handed]
    change idx < wrappingAdd s.len 1 at less
    rw [wrappingAdd] at less
    rcases Nat.lt_or_ge idx s.len with before | now
    · exact List.mem_cons_of_mem _ (claimed.filled idx before)
    · have same : idx = s.len := by omega
      exact same ▸ List.mem_cons_self
  · rw [handed] at listed
    rcases List.mem_cons.mp listed with rfl | before
    · exact small
    · exact claimed.small idx before

/-- Every step that is served keeps the claims. -/
theorem Claimed.moves (claimed : s.Claimed) (wellFormed : s.WellFormed)
    (moves : s.Moves dbg t s') (served : s.Served t s')
    : s'.Claimed := by
  cases moves.chunked served (claimed.ensures t) with
  | going chunks len handed goes =>
      refine claimed.going (fun chunk => ?_) len handed moves.others ?_
      · rw [chunks]
        exact id
      · rw [chunks]
        exact goes
  | pushed about reached => exact reached ▸ claimed.pushing wellFormed.len about
  | installed chunk buffer after about reached =>
      subst s'
      have ensures := claimed.ensures t
      rw [about] at ensures
      have ensured : after.Ensured fun other =>
          (Function.update s.chunks chunk (some buffer) other).isSome :=
        (ensures.2.mono fun other present => isSome_installed.mpr (Or.inr present)).ensured
          (isSome_installed.mpr (Or.inl rfl))
      refine claimed.going (t := t)
        (fun other present => isSome_installed.mpr (Or.inr present)) rfl rfl
        (fun u apart => pc_goto_of_ne _ t apart _) ?_
      rw [pc_goto_self, about]
      exact ensured.goesOn fun _ => id

-----------------------------------------------------------------------------------------
-- The order of the chunks
-----------------------------------------------------------------------------------------

section

variable [Fintype T]

/-- The activities that have claimed an index without knowing that its chunk is there. -/
def claimers (s : Sys T K V E) : Finset T := {t | ((s.pc t).claims).isSome}

omit [Key K] [DecidableEq T] in
/-- Different indices are claimed by different activities. -/
theorem card_claims {indices : Finset Nat}
    (pending : ∀ idx ∈ indices, ∃ t, (s.pc t).claims = some idx)
    : indices.card ≤ s.claimers.card := by
  calc indices.card
    _ ≤ (s.claimers.image fun t => ((s.pc t).claims).getD 0).card := by
      refine Finset.card_le_card fun idx member => ?_
      obtain ⟨t, claims⟩ := pending idx member
      refine Finset.mem_image.mpr ⟨t, ?_, by rw [claims]; rfl⟩
      exact Finset.mem_filter.mpr ⟨Finset.mem_univ t, by rw [claims]; rfl⟩
    _ ≤ s.claimers.card := Finset.card_image_le

omit [Key K] [DecidableEq T] in
/-- Whoever installs a chunk finds those below it, if at most 32 claims are pending: below a
missing chunk all of its indices are claimed, and so is the index that the chunk is for.
-/
theorem Claimed.lower (claimed : s.Claimed) (few : s.claimers.card ≤ 32) {chunk : Nat}
    {new : Option Nat} {after : AfterEnsure} (about : s.pc t = .ensureCas chunk new after)
    : ∀ lower < chunk, (s.chunks lower).isSome := by
  intro lower less
  have ensures := claimed.ensures t
  rw [about] at ensures
  cases after with
  | reserving current maxChunk =>
      obtain ⟨_, rfl, seen⟩ := ensures
      exact seen lower less
  | pushed idx =>
      obtain ⟨_, rfl⟩ := ensures
      by_contra missing
      have listed : idx ∈ handedOut s.trace := claimed.handed t idx (by rw [about]; rfl)
      have small := claimed.small idx listed
      have start := (chunkOf_bounds small).1
      have full := capacityBelow_mono (show lower + 1 ≤ chunkOf idx from less)
      have room : 32 ≤ chunkCapacity lower := by
        rw [chunkCapacity_eq]
        exact Nat.le_mul_of_pos_right 32 (Nat.pos_of_neZero _)
      rw [capacityBelow_succ] at full
      let indices := insert idx (Finset.Ico (capacityBelow lower) (capacityBelow lower + 32))
      have apart : idx ∉ Finset.Ico (capacityBelow lower) (capacityBelow lower + 32) := by
        rw [Finset.mem_Ico]
        omega
      have many : indices.card = 33 := by
        rw [Finset.card_insert_of_notMem apart, Nat.card_Ico]
        omega
      have pending : ∀ other ∈ indices, ∃ u, (s.pc u).claims = some other := by
        intro other member
        rcases Finset.mem_insert.mp member with rfl | within
        · exact ⟨t, by rw [about]; rfl⟩
        · rw [Finset.mem_Ico] at within
          have housed : chunkOf other = lower :=
            chunkOf_eq (by omega) within.1 (by rw [capacityBelow_succ]; omega)
          rcases claimed.served other (claimed.below idx listed other (by omega)) with
            present | pending
          · rw [housed] at present
            exact absurd present missing
          · exact pending
      have := card_claims pending
      omega

variable {choice : Choice K V E}

/-- An allocation that does not return null, and that panics at most where no index has been
claimed.
-/
def Grants (s : Sys T K V E) (t : T) (choice : Choice K V E) : Prop :=
  choice.isAllocNull = false ∧ (choice.isLayoutOverflow = true → (s.pc t).claims = none)

/-- A step in which allocations are granted. -/
def GrantedStep (dbg : Bool) (s s' : Sys T K V E) : Prop :=
  ∃ t choice, s.Grants t choice ∧ step dbg s t choice = some s'

omit [DecidableEq T] [Fintype T] [Key K] in
theorem grants_of_supplies (s : Sys T K V E) (t : T) (supplies : choice.supplies = true)
    : s.Grants t choice := by
  cases choice with
  | allocNull | layoutOverflow => cases supplies
  | _ => exact ⟨rfl, nofun⟩

/-- A step in which allocations are granted is served. -/
theorem served_of_step (grants : s.Grants t choice) (found : step dbg s t choice = some s')
    : s.Served t s' := by
  intro chunk after about
  simp only [step, about] at found
  cases choice with
  | go =>
      cases found
      exact Or.inl ⟨_, pc_goto_self _ t _⟩
  | allocNull => cases grants.1
  | layoutOverflow =>
      cases found
      have claims := grants.2 rfl
      rw [about] at claims
      exact Or.inr ⟨pc_unwind_self s t, claims⟩
  | _ => cases found

theorem supplied_of_step (supplies : choice.supplies = true)
    (found : step dbg s t choice = some s')
    : s.Served t s' :=
  served_of_step (grants_of_supplies s t supplies) found

theorem SuppliedStep.granted (supplied : SuppliedStep dbg s s') : GrantedStep dbg s s' := by
  obtain ⟨t, choice, supplies, found⟩ := supplied
  exact ⟨t, choice, grants_of_supplies s t supplies, found⟩

theorem GrantedStep.step (granted : GrantedStep dbg s s') : Step dbg s s' := by
  obtain ⟨t, choice, _, found⟩ := granted
  exact ⟨t, choice, found⟩

/-- A run in which allocation succeeds is a run. -/
theorem steps_of_supplied (run : Relation.ReflTransGen (SuppliedStep dbg) s s')
    : Relation.ReflTransGen (Step dbg) s s' :=
  Relation.ReflTransGen.mono (fun _ _ supplied => supplied.granted.step) _ _ run

/-- A run in which allocations are granted keeps the claims, by induction on the run. -/
theorem Claimed.of_granted (claimed : s.Claimed) (wellFormed : s.WellFormed)
    (run : Relation.ReflTransGen (GrantedStep dbg) s s')
    : s'.Claimed ∧ s'.WellFormed := by
  induction run with
  | refl => exact ⟨claimed, wellFormed⟩
  | tail _ last ih =>
      obtain ⟨t, choice, grants, found⟩ := last
      have moves := step_moves found
      exact ⟨ih.1.moves ih.2 moves (served_of_step grants found), ih.2.moves moves⟩

theorem Claimed.of_run (claimed : s.Claimed) (wellFormed : s.WellFormed)
    (run : Relation.ReflTransGen (SuppliedStep dbg) s s')
    : s'.Claimed ∧ s'.WellFormed :=
  claimed.of_granted wellFormed
    (Relation.ReflTransGen.mono (fun _ _ => SuppliedStep.granted) _ _ run)

theorem claimed_of_run
    (run : Relation.ReflTransGen (SuppliedStep dbg) (.withKey T K V E) s)
    : s.Claimed ∧ s.WellFormed :=
  Claimed.withKey.of_run .withKey run

/-- While at most 32 claims are pending the chunks appear in order, by induction on the run. -/
theorem chunksInOrder_of_run
    (run
      : Relation.ReflTransGen (fun s s' => SuppliedStep dbg s s' ∧ s.claimers.card ≤ 32)
          (.withKey T K V E) s)
    : s.ChunksInOrder := by
  induction run with
  | refl => nofun
  | tail earlier last ih =>
      obtain ⟨⟨t, choice, supplies, found⟩, few⟩ := last
      have claimed := (claimed_of_run (Relation.ReflTransGen.mono (fun _ _ step => step.1) _ _ earlier)).1
      have moves := step_moves found
      intro chunk present lower less
      cases moves.chunked (supplied_of_step supplies found) (claimed.ensures t) with
      | going chunks =>
          rw [chunks] at present ⊢
          exact ih chunk present lower less
      | pushed about reached =>
          subst reached
          exact ih chunk present lower less
      | installed installed buffer after about reached =>
          subst reached
          refine isSome_installed.mpr (Or.inr ?_)
          rcases isSome_installed.mp present with rfl | before
          · exact claimed.lower few about lower less
          · exact ih chunk before lower less

/-- While the others are suspended and the allocator does not fail, every index has its chunk. -/
theorem housed_of_alone (run : Relation.ReflTransGen (SuppliedStep dbg) (.withKey T K V E) s)
    (suspended : (s.pc t).suspended = true) (alone : s.Alone t) {idx : Nat} (within : idx < s.len)
    : (s.chunks (chunkOf idx)).isSome := by
  have claimed := (claimed_of_run run).1
  rcases claimed.served idx (claimed.filled idx within) with present | ⟨u, claims⟩
  · exact present
  · have resting : (s.pc u).suspended = true := by
      by_cases self : u = t
      · rw [self]
        exact suspended
      · exact alone u self
    generalize s.pc u = pc at resting claims
    cases pc <;> first | cases claims | cases resting

-----------------------------------------------------------------------------------------
-- A chunk before the one below it
-----------------------------------------------------------------------------------------

/-- The first activities of a list have each claimed an index, and the others are idle. -/
structure Claiming (s : Sys T K V E) (claims : Nat) (others : List T) : Prop where
  len : s.len = claims
  head : s.freeHead = packFreeHead 0 SENTINEL
  empty : ∀ chunk, s.chunks chunk = none
  idle : ∀ t ∈ others, s.pc t = .idle

/-- One more activity claims an index. -/
theorem Claiming.claim (dbg : Bool) {claims : Nat} {others : List T}
    (claiming : s.Claiming claims (t :: others)) (apart : t ∉ others) (room : claims + 1 < 2 ^ 32)
    : ∃ s', Relation.ReflTransGen (SuppliedStep dbg) s s'
        ∧ s'.Claiming (claims + 1) others
        ∧ s'.pc t = .ensureLoad (chunkOf claims) (.pushed claims) := by
  have len := claiming.len
  subst len
  let called : Sys T K V E := (s.begin t .tryInsertWithKey).goto t .popLoad
  let growing : Sys T K V E := called.goto t .pushZeroed
  let claimed : Sys T K V E := growing.pushZeroed t
  have empty : (Pc.popLoop called.freeHead called.updates : Pc K V E) = .pushZeroed := by
    change (Pc.popLoop s.freeHead s.updates : Pc K V E) = _
    rw [Pc.popLoop, claiming.head, unpackFreeHead_pack (by decide) (by decide)]
    rfl
  have first : SuppliedStep dbg s called :=
    ⟨t, .call .tryInsertWithKey, rfl, by
      simp only [step, claiming.idle t List.mem_cons_self]
      rfl⟩
  have second : SuppliedStep dbg called growing :=
    ⟨t, .go, rfl, by
      have about : called.pc t = .popLoad := pc_goto_self _ t _
      simp only [step, about, empty]
      rfl⟩
  have third : SuppliedStep dbg growing claimed :=
    ⟨t, .go, rfl, by
      have about : growing.pc t = .pushZeroed := pc_goto_self _ t _
      simp only [step, about]
      rfl⟩
  refine ⟨claimed, .head first (.head second (.single third)), ⟨?_, claiming.head,
    claiming.empty, fun other member => ?_⟩, pc_goto_self _ t _⟩
  · exact Nat.mod_eq_of_lt room
  · have self : other ≠ t := fun same => apart (same ▸ member)
    have idle := claiming.idle other (List.mem_cons_of_mem _ member)
    simpa [claimed, growing, called, pushZeroed, goto, begin, emit, self] using idle

/-- Many activities claim indices one after the other, by induction on the activities. -/
theorem Claiming.claims (dbg : Bool) {claims : Nat} {actors others : List T}
    (claiming : s.Claiming claims (actors ++ others)) (distinct : (actors ++ others).Nodup)
    (room : claims + actors.length < 2 ^ 32)
    : ∃ s', Relation.ReflTransGen (SuppliedStep dbg) s s'
        ∧ s'.Claiming (claims + actors.length) others := by
  induction actors generalizing s claims with
  | nil => exact ⟨s, .refl, claiming⟩
  | cons t actors ih =>
      rw [List.length_cons] at room
      have parts := List.nodup_cons.mp distinct
      obtain ⟨middle, first, claiming', _⟩ := claiming.claim dbg parts.1 (by omega)
      obtain ⟨s', rest, final⟩ := ih claiming' parts.2 (by omega)
      refine ⟨s', first.trans rest, ?_⟩
      rwa [List.length_cons, Nat.add_comm actors.length, ← Nat.add_assoc]

/-- While 32 activities have claimed the indices of chunk 0, another one allocates chunk 1. -/
theorem exists_chunk_out_of_order (dbg : Bool) (many : 33 ≤ Fintype.card T)
    : ∃ s : Sys T K V E, Relation.ReflTransGen (SuppliedStep dbg) (.withKey T K V E) s
        ∧ s.chunks 0 = none
        ∧ (s.chunks 1).isSome := by
  obtain ⟨actors, size, distinct⟩ : ∃ actors : List T, actors.length = 33 ∧ actors.Nodup := by
    obtain ⟨chosen, _, size⟩ := Finset.exists_subset_card_eq
      (s := (Finset.univ : Finset T)) (n := 33) (by rwa [Finset.card_univ])
    exact ⟨chosen.toList, by rw [Finset.length_toList, size], chosen.nodup_toList⟩
  obtain ⟨stalled, t, rfl⟩ : ∃ stalled t, actors = stalled ++ [t] :=
    ⟨actors.dropLast, actors.getLast (by rintro rfl; cases size),
      (List.dropLast_append_getLast _).symm⟩
  have count : stalled.length = 32 := by
    rw [List.length_append, List.length_singleton] at size
    omega
  have start : (Sys.withKey T K V E).Claiming 0 (stalled ++ [t]) :=
    ⟨rfl, rfl, fun _ => rfl, fun _ _ => rfl⟩
  obtain ⟨full, fill, claiming⟩ := start.claims dbg distinct (by omega)
  rw [count] at claiming
  obtain ⟨claimed, claim, idle, about⟩ := claiming.claim dbg (by simp) (by omega)
  let absent : Sys T K V E := claimed.goto t (.ensureAlloc 1 (.pushed 32))
  let allocated : Sys T K V E :=
    ({ absent with buffers := absent.buffers + 1 }.emit
      (.allocated t 1 absent.buffers (chunkCapacity 1))).goto t
        (.ensureCas 1 (some absent.buffers) (.pushed 32))
  let installed : Sys T K V E := allocated.installChunk t 1 (some absent.buffers) (.pushed 32)
  have empty : allocated.chunks 1 = none := idle.empty 1
  have first : SuppliedStep dbg claimed absent :=
    ⟨t, .go, rfl, by
      simp only [step, about, idle.empty]
      rfl⟩
  have second : SuppliedStep dbg absent allocated :=
    ⟨t, .go, rfl, by
      have about : absent.pc t = .ensureAlloc 1 (.pushed 32) := pc_goto_self _ t _
      simp only [step, about]
      rfl⟩
  have third : SuppliedStep dbg allocated installed :=
    ⟨t, .go, rfl, by
      have about : allocated.pc t = .ensureCas 1 (some absent.buffers) (.pushed 32) :=
        pc_goto_self _ t _
      simp only [step, about]
      rfl⟩
  have reached : installed.chunks = Function.update claimed.chunks 1 (some absent.buffers) := by
    simp only [installed, installChunk, if_pos empty]
    rfl
  refine ⟨installed, (fill.trans claim).trans (.head first (.head second (.single third))), ?_, ?_⟩
  · rw [reached, Function.update_of_ne (by decide)]
    exact idle.empty 0
  · rw [reached, Function.update_self]
    rfl

end

end Sys

-----------------------------------------------------------------------------------------
-- Chunks in order
-----------------------------------------------------------------------------------------

/-- The allocated chunks form a prefix in every run in which at most 32 activities at a time
have claimed an index and not yet seen to its chunk; in all runs, exactly if there are at
most 32 activities.
-/
theorem chunks_in_order_iff {T K V E : Type} [DecidableEq T] [Fintype T] [Key K] (dbg : Bool)
    : (∀ s,
        Relation.ReflTransGen
          (fun s s' => Sys.SuppliedStep dbg s s' ∧ s.claimers.card ≤ 32)
          (Sys.withKey T K V E) s
        → s.ChunksInOrder)
      ∧ ((∀ s, Relation.ReflTransGen (Sys.SuppliedStep dbg) (Sys.withKey T K V E) s →
            s.ChunksInOrder)
        ↔ Fintype.card T ≤ 32) := by
  refine ⟨fun s run => Sys.chunksInOrder_of_run run, fun ordered => ?_, fun few s run => ?_⟩
  · by_contra many
    obtain ⟨s, run, missing, present⟩ :=
      Sys.exists_chunk_out_of_order (T := T) (K := K) (V := V) (E := E) dbg (by omega)
    have lower := ordered s run 1 present 0 (by decide)
    rw [missing] at lower
    cases lower
  · refine Sys.chunksInOrder_of_run
      (Relation.ReflTransGen.mono (fun before _ step => ⟨step, ?_⟩) _ _ run)
    exact Nat.le_trans (Finset.card_le_univ _) few

/-- One of 64 activities claims an index and stalls, and another one reserves two chunks. -/
def reserveWhileClaiming : List (Fin 64 × Choice UInt64 Nat Empty) :=
  Sys.turns 0 [.call .tryInsertWithKey, .go, .go]
  ++ Sys.turns 1 (.call (.reserve 40) :: List.replicate 10 .go)

open Sys in
/-- After that run the claim is still pending, and the chunks form a prefix. -/
theorem chunks_in_order_iff_reserveWhileClaiming
    : ∃ s : Sys (Fin 64) UInt64 Nat Empty,
        s.len = 1
        ∧ s.claimers.card = 1
        ∧ (s.chunks 1).isSome
        ∧ s.ChunksInOrder := by
  have found : (runIf (fun s _ => decide (s.claimers.card ≤ 32)) false
      (.withKey (Fin 64) UInt64 Nat Empty) reserveWhileClaiming).map
      (fun s => (s.len, s.claimers.card, (s.chunks 1).isSome)) = some (1, 1, true) := by
    decide +kernel
  obtain ⟨s, reached, after⟩ := Option.map_eq_some_iff.mp found
  simp only [Prod.mk.injEq] at after
  obtain ⟨len, claiming, present⟩ := after
  refine ⟨s, len, claiming, present, (chunks_in_order_iff false).1 s ?_⟩
  refine Relation.ReflTransGen.mono ?_ _ _ (suppliedSteps_of_runIf reached (by decide +kernel))
  exact fun _ _ ⟨t, choice, few, supplies, step⟩ =>
    ⟨⟨t, choice, supplies, step⟩, of_decide_eq_true few⟩

/-- With 33 threads, chunk 1 may be there and chunk 0 missing. -/
theorem chunks_out_of_order
    : ¬ ∀ s, Relation.ReflTransGen (Sys.SuppliedStep false)
          (Sys.withKey (Fin 33) UInt64 Nat Nat) s
        → s.ChunksInOrder := by
  intro ordered
  obtain ⟨s, run, missing, present⟩ :=
    Sys.exists_chunk_out_of_order (T := Fin 33) (K := UInt64) (V := Nat) (E := Nat) false
      (by decide)
  have lower := ordered s run 1 present 0 (by decide)
  rw [missing] at lower
  cases lower

end AtomicSlotMap
