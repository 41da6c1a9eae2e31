import AtomicSlotMap.Correctness.ChunkOrder
import AtomicSlotMap.Correctness.FreeListStack
import AtomicSlotMap.Implementation.Guards
import AtomicSlotMap.Ownership.Chunks

/-! Waits for chunks. An index that a program counter names has been handed out, and its chunk is
there unless it is only looked up; so whoever waits for a chunk waits for an activity that is
about to allocate it.
-/

namespace AtomicSlotMap

variable {T K V E : Type} [Key K]

/-- Whether the index that is waited for comes from a key or an iterator. -/
def Pc.looksUp : Pc K V E → Bool
  | .removeVersion _ | .acquireLoad _ _ | .containsVersion _ | .nextVersion _ => true
  | _ => false

namespace Sys

/-- An index has been put back on the free list before. -/
def Recycled (s : Sys T K V E) (idx : Nat) : Prop := ∃ actor, .recycled actor idx ∈ s.trace

/-- A link names the end of the list or an index that has been put back before. -/
def Links (s : Sys T K V E) (idx : Nat) : Prop := idx = SENTINEL ∨ s.Recycled idx

/-- An index fits in a word, and its chunk is there. -/
def Housed (s : Sys T K V E) (idx : Nat) : Prop := idx < 2 ^ 32 ∧ s.present idx

end Sys

/-- The indices that an activity names: those it waits for have been handed out, and all but those
it looks up are known to have their chunks, as are those it has waited for.
-/
def Pc.Reaches (s : Sys T K V E) (known : Nat → Prop) : Pc K V E → Prop
  | .waitForChunk idx next =>
      (next.looksUp = true → idx ∈ handedOut s.trace)
      ∧ (next.looksUp = false → known idx)
      ∧ next.Reaches s fun other => known other ∨ other = idx
  | .assertRefCount _ next | .assertVersion _ next => next.Reaches s known
  | .popNext old _ => s.Recycled (unpackFreeHead old).2
  | .popCas old next _ => known (unpackFreeHead old).2 ∧ s.Links next
  | .insertVersion idx | .closure idx _ | .insertWrite idx _ _ | .insertRefCount idx _ _
  | .insertPublish idx _ _ | .pushLoad idx _ | .dropValue idx _ => known idx
  | .pushStore idx old _ => known idx ∧ s.Links (unpackFreeHead old).2
  | .pushCas idx _ _ => known idx ∧ s.Links (s.slots idx).nextFree
  | .removeVersion key | .removeCas key _ | .removeDec key | .acquireLoad key _
  | .acquireCas key _ _ | .acquireVersion key _ | .acquireDec key _ => known (KeyData.idx key)
  | .unguardDec guard | .cloneInc guard => known (KeyData.idx guard.key)
  | _ => True

namespace Sys

/-- The indices that the free list, the guards, the keys of stored values and the program counters
name have their chunks.
-/
structure Reaching (s : Sys T K V E) : Prop where
  head : s.Links (unpackFreeHead s.freeHead).2
  recycled : ∀ idx, s.Recycled idx → s.Housed idx ∧ s.Links (s.slots idx).nextFree
  guards : ∀ guard ∈ s.guards, s.Housed (KeyData.idx guard.key)
  published
    : ∀ actor key stored, .published actor key stored ∈ s.trace → s.Housed (KeyData.idx key)
  pcs : ∀ t, (s.pc t).Reaches s s.Housed

/-- What a step leaves of the indices that are named. -/
structure Grows (s s' : Sys T K V E) : Prop where
  handed : ∀ idx ∈ handedOut s.trace, idx ∈ handedOut s'.trace
  recycled : ∀ idx, s.Recycled idx → s'.Recycled idx
  links : ∀ idx, s.Links (s.slots idx).nextFree → s'.Links (s'.slots idx).nextFree
  present : ∀ idx, s.present idx → s'.present idx

end Sys

section

variable {dbg : Bool} {s s' : Sys T K V E} {pc pc' : Pc K V E} {known known' : Nat → Prop}

omit [Key K] in
theorem Sys.Grows.links_mono (grows : s.Grows s') {idx : Nat} (links : s.Links idx)
    : s'.Links idx :=
  links.imp_right (grows.recycled idx)

omit [Key K] in
theorem Sys.Grows.refl (s : Sys T K V E) : s.Grows s :=
  ⟨fun _ => id, fun _ => id, fun _ => id, fun _ => id⟩

omit [Key K] in
theorem Sys.Grows.housed (grows : s.Grows s') {idx : Nat} (housed : s.Housed idx)
    : s'.Housed idx :=
  ⟨housed.1, grows.present idx housed.2⟩

/-- Knowing more is no harm, by induction on the waits. -/
theorem Pc.Reaches.mono (reaches : pc.Reaches s known) (grows : s.Grows s')
    (more : ∀ idx, known idx → known' idx)
    : pc.Reaches s' known' := by
  induction pc generalizing known known' with
  | waitForChunk idx next ih =>
      obtain ⟨handed, there, later⟩ := reaches
      exact ⟨fun looks => grows.handed idx (handed looks), fun other => more idx (there other),
        ih later fun other => Or.imp_left (more other)⟩
  | assertRefCount _ next ih | assertVersion _ next ih => exact ih reaches more
  | popNext old seen => exact grows.recycled _ reaches
  | popCas | pushStore => exact ⟨more _ reaches.1, grows.links_mono reaches.2⟩
  | pushCas idx => exact ⟨more _ reaches.1, grows.links idx reaches.2⟩
  | insertVersion | closure | insertWrite | insertRefCount | insertPublish | pushLoad
  | dropValue | removeVersion | removeCas | removeDec | acquireLoad | acquireCas
  | acquireVersion | acquireDec | unguardDec | cloneInc => exact more _ reaches
  | _ => trivial

omit [Key K] in
theorem Pc.looksUp_exclusivelyOwned {idx : Nat} {next : Pc K V E} (other : next.looksUp = false)
    : (Pc.exclusivelyOwned dbg idx next).looksUp = false := by
  cases dbg with
  | false => exact other
  | true => rfl

theorem Pc.reaches_exclusivelyOwned {idx : Nat} {next : Pc K V E} (reaches : next.Reaches s known)
    : (Pc.exclusivelyOwned dbg idx next).Reaches s known := by
  cases dbg <;> exact reaches

/-- A wait for an index that is known. -/
theorem Pc.reaches_wait {idx : Nat} {next : Pc K V E} (there : known idx)
    (other : next.looksUp = false)
    (reaches : next.Reaches s fun other => known other ∨ other = idx)
    : (Pc.waitForChunk idx next).Reaches s known := by
  refine ⟨fun looks => ?_, fun _ => there, reaches⟩
  rw [other] at looks
  cases looks

theorem Pc.reaches_pushFreeIndex {idx : Nat} {after : AfterPush K E} (there : known idx)
    : (Pc.pushFreeIndex dbg idx after : Pc K V E).Reaches s known := by
  apply Pc.reaches_wait there (Pc.looksUp_exclusivelyOwned rfl)
  apply Pc.reaches_exclusivelyOwned
  exact Or.inr rfl

theorem Getter.reaches_missed (getter : Getter)
    : (getter.missed : Pc K V E).Reaches s known := by
  cases getter <;> trivial

theorem AfterPush.reaches_resume (after : AfterPush K E)
    : (after.resume : Pc K V E).Reaches s known := by
  cases after with
  | missed getter => exact getter.reaches_missed
  | _ => trivial

/-- `ensure_chunk_exists` returns, with its chunk in place. -/
theorem AfterEnsure.Ensured.reaches {after : AfterEnsure}
    (ensured : after.Ensured fun chunk => (s.chunks chunk).isSome) (wellFormed : after.WellFormed)
    : (after.resume : Pc K V E).Reaches s s.Housed := by
  cases after with
  | pushed idx => exact ⟨wellFormed, ensured⟩
  | reserving chunk maxChunk =>
      simp only [AfterEnsure.resume]
      split <;> trivial

theorem Res.reaches_rest (res : Res K V E) : res.rest.Reaches s known := by
  cases res <;> trivial

/-- The loop of `pop_free_index` follows the head. -/
theorem Sys.Reaching.popLoop (reaching : s.Reaching)
    : (Pc.popLoop s.freeHead s.updates : Pc K V E).Reaches s s.Housed := by
  rw [Pc.popLoop]
  split
  · trivial
  · next more =>
    have recycled := reaching.head.resolve_left more
    exact Pc.reaches_wait (reaching.recycled _ recycled).1 rfl recycled

/-- Whoever looks up an index below the length waits for one that has been handed out. -/
theorem Pc.reaches_lookUp {idx : Nat} {next : Pc K V E} (handed : idx ∈ handedOut s.trace)
    (looks : next.looksUp = true)
    (reaches : next.Reaches s fun other => known other ∨ other = idx)
    : (Pc.waitForChunk idx next).Reaches s known := by
  refine ⟨fun _ => handed, fun other => ?_, reaches⟩
  rw [looks] at other
  cases other

/-- A move of a program counter names such indices again, by cases on the move. -/
theorem Pc.Goes.reaches (goes : pc.Goes dbg s pc') (reaching : s.Reaching) (claimed : s.Claimed)
    (ensures : pc.Ensures fun chunk => (s.chunks chunk).isSome) (wellFormed : pc.WellFormed)
    (reaches : pc.Reaches s s.Housed)
    : pc'.Reaches s s.Housed := by
  cases goes with
  | arrived idx next present =>
      obtain ⟨handed, there, later⟩ := reaches
      refine later.mono (Sys.Grows.refl s) fun other known => ?_
      rcases known with known | rfl
      · exact known
      · cases looks : pc'.looksUp with
        | false => exact there looks
        | true => exact ⟨claimed.small other (handed looks), present⟩
  | unreferenced | unoccupied => exact reaches
  | popLoad | popAgain => exact reaching.popLoop
  | popNext old seen => exact reaching.recycled _ reaches
  | insertVersion idx => exact reaches
  | closureOk idx version value =>
      apply Pc.reaches_wait reaches (Pc.looksUp_exclusivelyOwned rfl)
      apply Pc.reaches_exclusivelyOwned
      exact Or.inr rfl
  | ensurePresent chunk after present =>
      exact (AfterEnsure.About.ensured ensures present).reaches wellFormed
  | pushLoad idx after => exact ⟨reaches, reaching.head⟩
  | pushAgain idx old after => exact ⟨reaches.1, reaching.head⟩
  | removeFound _ within | getFound _ _ within =>
      exact Pc.reaches_lookUp (claimed.filled _ within) rfl (Or.inr rfl)
  | containsFound _ within | nextFound _ within =>
      exact Pc.reaches_lookUp (claimed.filled _ within) rfl trivial
  | removeCurrent | removeAgain | acquireLoad | acquireAgain => exact reaches
  | acquireStale => exact reaches
  | _ => trivial

theorem Pc.Answers.reaches {res : Res K V E} (answers : pc.Answers dbg s res pc')
    (reaches : pc.Reaches s known)
    : pc'.Reaches s known := by
  cases answers with
  | closureErr idx version err => exact Pc.reaches_pushFreeIndex reaches
  | acquireStale => exact reaches
  | _ => trivial

theorem Op.Starts.reaches {op : Op K} (starts : op.Starts s pc)
    (guards : ∀ guard ∈ s.guards, known (KeyData.idx guard.key))
    : pc.Reaches s known := by
  cases starts with
  | cloneGuard id guard member => exact Pc.reaches_wait (guards guard member) rfl (Or.inr rfl)
  | _ => trivial

theorem Pc.Decrements.reaches {needsDrop otherwise : Pc K V E} {idx : Nat}
    (decrements : pc.Decrements idx needsDrop otherwise) (reaches : pc.Reaches s known)
    : needsDrop.Reaches s known ∧ otherwise.Reaches s known := by
  cases decrements with
  | remove key => exact ⟨reaches, trivial⟩
  | acquire key getter => exact ⟨reaches, getter.reaches_missed⟩
  | unguard guard => exact ⟨Pc.reaches_wait reaches rfl (Or.inr rfl), trivial⟩

end

namespace Sys

variable [DecidableEq T] {dbg : Bool} {s s' : Sys T K V E} {t : T}

omit [DecidableEq T] in
theorem Reaching.withKey : (Sys.withKey T K V E).Reaching where
  head := by
    left
    rw [Sys.withKey, unpackFreeHead_pack (by decide) (by decide)]
  recycled := nofun
  guards := nofun
  published := nofun
  pcs := fun _ => trivial

/-- A guard that is new in a step is one that a lookup or a clone has made. -/
theorem Moves.guards (moves : s.Moves dbg t s')
    : ∀ guard ∈ s'.guards,
        guard ∈ s.guards
        ∨ (∃ getter, s.pc t = .acquireVersion guard.key getter)
        ∨ ∃ source, s.pc t = .cloneInc source ∧ source.key = guard.key := by
  intro guard member
  cases moves.hands with
  | kept guards => exact Or.inl (guards ▸ member)
  | dropping id dropped calls found guards | forgot id dropped calls found guards =>
      rw [guards] at member
      exact Or.inl (List.mem_of_mem_eraseP member)
  | made new guards forgotten guardIds id source =>
      rw [guards] at member
      rcases List.mem_cons.mp member with rfl | before
      · rcases source with ⟨⟨getter, about, _⟩, _⟩ | ⟨cloned, about, same, _⟩
        · exact Or.inr (Or.inl ⟨getter, about⟩)
        · exact Or.inr (Or.inr ⟨cloned, about, same⟩)
      · exact Or.inl before

/-- A step keeps the indices that are named, and links as it changes them name such indices. -/
theorem Reaching.grows (reaching : s.Reaching) (moves : s.Moves dbg t s') : s.Grows s' := by
  have recycled (idx : Nat) (before : s.Recycled idx) : s'.Recycled idx := by
    obtain ⟨actor, member⟩ := before
    exact ⟨actor, moves.records.suffix.subset member⟩
  have links_mono {idx : Nat} (links : s.Links idx) : s'.Links idx := links.imp_right (recycled idx)
  refine ⟨fun idx listed => ?_, recycled, fun idx links => ?_, fun idx present => ?_⟩
  · exact (moves.records.suffix.filterMap Event.handsOut).subset listed
  · have mine := reaching.pcs t
    cases moves.stacks with
    | walked _ unlinked =>
        rw [unlinked.links]
        exact links_mono links
    | popped | recycled => exact links_mono links
    | linked pushed old after about =>
        rw [about] at mine
        change s.Links (s.slots idx).nextFree at links
        apply links_mono
        change s.Links (Function.update s.slots pushed _ idx).nextFree
        by_cases same : idx = pushed
        · subst idx
          rw [Function.update_self]
          exact mine.2
        · rw [Function.update_of_ne same]
          exact links
  · obtain ⟨buffer, found⟩ := Option.isSome_iff_exists.mp present
    exact Option.isSome_of_eq_some (moves.chunks_of_some found)

omit [Key K] [DecidableEq T] in
/-- The buffer of a chunk that is installed is there. -/
theorem Claimed.ensured (claimed : s.Claimed) {chunk : Nat} {new : Option Nat} {after : AfterEnsure}
    (about : s.pc t = .ensureCas chunk new after)
    : after.Ensured fun other => (Function.update s.chunks chunk new other).isSome := by
  have ensures := claimed.ensures t
  rw [about] at ensures
  obtain ⟨buffer, rfl⟩ := Option.isSome_iff_exists.mp ensures.1
  have more (other : Nat) (present : (s.chunks other).isSome) :
      (Function.update s.chunks chunk (some buffer) other).isSome :=
    isSome_installed.mpr (Or.inr present)
  exact (ensures.2.mono more).ensured (isSome_installed.mpr (Or.inl rfl))

/-- An activity names such indices again after its step, by cases on the move. -/
theorem Reaching.mine (reaching : s.Reaching) (claimed : s.Claimed) (wellFormed : s.WellFormed)
    (moves : s.Moves dbg t s') (grows : s.Grows s')
    : (s'.pc t).Reaches s' s'.Housed := by
  have mine := reaching.pcs t
  have locals := wellFormed.locals t
  have ensures := claimed.ensures t
  have later {staged : Sys T K V E} {pc : Pc K V E} (reaches : pc.Reaches s s.Housed)
      (grows : s.Grows (staged.goto t pc)) :
      ((staged.goto t pc).pc t).Reaches (staged.goto t pc) (staged.goto t pc).Housed := by
    rw [pc_goto_self]
    exact reaches.mono grows fun _ => grows.housed
  cases moves with
  | stay => exact mine
  | go pc goes => exact later (goes.reaches reaching claimed ensures locals mine) grows
  | answered res pc answers => exact later (answers.reaches mine) grows
  | failed | dropPanicked =>
      rw [pc_unwind_self]
      trivial
  | popped old next seen about =>
      rw [about] at mine
      refine later (Pc.reaches_exclusivelyOwned ?_) grows
      exact Pc.reaches_wait mine.1 rfl (Or.inr rfl)
  | wrote idx version value about | armed idx version stored about | acquired key getter _ about =>
      rw [about] at mine
      exact later mine grows
  | dropped idx after about =>
      rw [about] at mine
      exact later (Pc.reaches_pushFreeIndex mine) grows
  | pushed | published | counted | allocated | discounted | beganReserve | beganDeref
  | beganForget => exact later trivial grows
  | installed chunk new after about absent =>
      rw [about] at locals
      rw [pc_goto_self]
      exact (claimed.ensured about).reaches locals
  | deallocated new after about =>
      rw [about] at locals ensures
      exact later (AfterEnsure.Ensured.reaches ensures locals) grows
  | linked idx old after about =>
      rw [about] at mine
      rw [pc_goto_self]
      refine ⟨grows.housed mine.1, grows.links_mono ?_⟩
      change s.Links (Function.update s.slots idx _ idx).nextFree
      rw [Function.update_self]
      exact mine.2
  | recycled idx old after about => exact later after.reaches_resume grows
  | retired key current about same =>
      rw [about] at mine
      revert grows
      rw [removeExchange, if_pos same]
      exact later mine
  | decremented idx needsDrop otherwise decrements =>
      revert grows
      rw [decRefCount]
      split
      · exact later (decrements.reaches mine).1
      · exact later (decrements.reaches mine).2
  | guarded key getter about same =>
      revert grows
      simp only [acquireCheck, if_pos same]
      exact later trivial
  | cloned guard about =>
      revert grows
      rw [cloneGuard]
      generalize wrappingAdd (s.slots (KeyData.idx guard.key)).refCount 1 = count
      dsimp only
      split
      · exact later trivial
      · intro _
        rw [pc_unwind_self]
        trivial
  | began op pc calls starts => exact later (starts.reaches reaching.guards) grows
  | beganDrop id guard calls found =>
      have housed := reaching.guards guard (List.mem_of_find?_eq_some found)
      exact later (Pc.reaches_wait housed rfl (Or.inr rfl)) grows
  | returned res => exact later res.reaches_rest grows
  | unwound => exact later trivial grows

/-- The index of the head after an exchange. -/
theorem unpackFreeHead_exchanged (tag : Nat) {index : Nat} (small : index < 2 ^ 32)
    : (unpackFreeHead (packFreeHead (wrappingAdd tag 1) index)).2 = index := by
  rw [wrappingAdd, unpackFreeHead_pack (Nat.mod_lt _ (by decide)) small]

/-- A step names no other indices, by what it does to the free list, the guards and the trace. -/
theorem Reaching.moves (reaching : s.Reaching) (claimed : s.Claimed) (wellFormed : s.WellFormed)
    (moves : s.Moves dbg t s')
    : s'.Reaching := by
  have grows := reaching.grows moves
  have mine := reaching.pcs t
  have locals := wellFormed.locals t
  obtain ⟨events, trace, caused⟩ := moves.causes
  refine ⟨?_, fun idx before => ?_, fun guard member => ?_, fun actor key stored member => ?_,
    fun other => ?_⟩
  · cases moves.stacks with
    | walked _ unlinked =>
        rw [unlinked.freeHead]
        exact grows.links_mono reaching.head
    | linked => exact grows.links_mono reaching.head
    | popped old next seen about =>
        rw [about] at mine
        have small : next < 2 ^ 32 := by
          rcases mine.2 with rfl | recycled
          · decide
          · exact (reaching.recycled next recycled).1.1
        change Links _ (unpackFreeHead (packFreeHead _ next)).2
        rw [unpackFreeHead_exchanged _ small]
        exact grows.links_mono mine.2
    | recycled idx old after about =>
        rw [about] at mine
        change Links _ (unpackFreeHead (packFreeHead _ idx)).2
        rw [unpackFreeHead_exchanged _ mine.1.1]
        exact Or.inr ⟨t, List.mem_cons_self⟩
  · obtain ⟨actor, member⟩ := before
    rw [trace] at member
    rcases List.mem_append.mp member with now | earlier
    · obtain ⟨rfl, old, after, about⟩ := caused _ now
      rw [about] at mine
      exact ⟨grows.housed mine.1, grows.links idx mine.2⟩
    · obtain ⟨housed, links⟩ := reaching.recycled idx ⟨actor, earlier⟩
      exact ⟨grows.housed housed, grows.links idx links⟩
  · rcases moves.guards guard member with before | ⟨getter, about⟩ | ⟨source, about, same⟩
    · exact grows.housed (reaching.guards guard before)
    · rw [about] at mine
      exact grows.housed mine
    · rw [about] at mine
      exact grows.housed (same ▸ mine)
  · rw [trace] at member
    rcases List.mem_append.mp member with now | earlier
    · obtain ⟨rfl, idx, version, about, rfl⟩ := caused _ now
      rw [about] at mine locals
      rw [KeyData.idx_new locals.1 locals.2.1 locals.2.2]
      exact grows.housed mine
    · exact grows.housed (reaching.published actor key stored earlier)
  · by_cases self : other = t
    · exact self ▸ reaching.mine claimed wellFormed moves grows
    · rw [moves.others other self]
      exact (reaching.pcs other).mono grows fun _ => grows.housed

variable [Fintype T] {free : List Nat}

/-- In a run in which allocations are granted the indices that are named have their chunks, by
induction on the run.
-/
theorem reaching_of_run (run : Relation.ReflTransGen (GrantedStep dbg) (.withKey T K V E) s)
    : s.Reaching := by
  induction run with
  | refl => exact .withKey
  | tail earlier last ih =>
      obtain ⟨claimed, wellFormed⟩ := Claimed.withKey.of_granted .withKey earlier
      obtain ⟨t, choice, _, found⟩ := last
      exact ih.moves claimed wellFormed (step_moves found)

omit [DecidableEq T] [Fintype T] in
/-- The free list names only indices with a chunk, by induction on the list. -/
theorem Reaching.housed_of_free (reaching : s.Reaching) (list : s.FreeList free)
    : ∀ idx ∈ free, s.Housed idx := by
  have linked (head : Nat) (links : s.Links head)
      (chain : Library.Chain (fun idx => (s.slots idx).nextFree) SENTINEL head free) :
      ∀ idx ∈ free, s.Housed idx := by
    clear list
    induction free generalizing head with
    | nil => exact nofun
    | cons first rest ih =>
        obtain ⟨rfl, apart, chain⟩ := chain
        obtain ⟨housed, next⟩ := reaching.recycled head (links.resolve_left apart)
        intro idx member
        rcases List.mem_cons.mp member with rfl | later
        · exact housed
        · exact ih _ next chain idx later
  exact linked _ reaching.head list

/-- A slot that is occupied or referenced contains a value, by cases on its phase. -/
theorem Inv.data_of_taken (inv : s.Inv free) {idx : Nat}
    (taken : (s.slots idx).version % 2 = 1 ∨ (s.slots idx).refCount ≠ 0)
    : (s.slots idx).data ≠ none := by
  have fits := inv.owned.slots idx
  change (s.slots idx).Fits idx _ _ at fits
  cases phase : (s.view free).phase idx with
  | unborn | free | held | emptied | lost =>
      rw [phase] at fits
      simp only [Slot.Fits] at fits
      omega
  | filled _ stored =>
      rw [phase] at fits
      rw [fits.2.2.1]
      exact Option.some_ne_none _
  | armed _ stored =>
      rw [phase] at fits
      rw [fits.2.2]
      exact Option.some_ne_none _
  | live key stored =>
      rw [phase] at fits
      rw [fits.2.2.2]
      exact Option.some_ne_none _
  | retired key stored remover | dropping _ key stored =>
      rw [phase] at fits
      rw [fits.2.2.2.2]
      exact Option.some_ne_none _

-----------------------------------------------------------------------------------------
-- Writers on their way
-----------------------------------------------------------------------------------------

/-- A step within the limits of the words in which no allocation fails. -/
def SuppliedNext (dbg : Bool) (s s' : Sys T K V E) : Prop :=
  ∃ t choice, s.Within t ∧ choice.supplies = true ∧ step dbg s t choice = some s'

theorem SuppliedNext.supplied (next : SuppliedNext dbg s s') : SuppliedStep dbg s s' := by
  obtain ⟨t, choice, _, supplies, found⟩ := next
  exact ⟨t, choice, supplies, found⟩

theorem SuppliedNext.next (next : SuppliedNext dbg s s') : Next dbg s s' := by
  obtain ⟨t, choice, within, _, found⟩ := next
  exact ⟨t, choice, within, found⟩

theorem suppliedNext_of_run {schedule : List (T × Choice K V E)}
    (found : run dbg s schedule = some s') (supplies : schedule.all (·.2.supplies) = true)
    : Relation.ReflTransGen (SuppliedNext dbg) s s' :=
  Relation.ReflTransGen.mono
    (fun _ _ ⟨t, choice, checked, supplied, step⟩ =>
      ⟨t, choice, within_of_within? checked, supplied, step⟩) _ _
    (suppliedSteps_of_runIf found supplies)

end Sys

/-- An activity is inside `push_zeroed`, which has claimed this index for it and has not yet
exchanged the pointer of its chunk.
-/
def Pc.Pushing (idx : Nat) : Pc K V E → Prop
  | .ensureLoad chunk after | .ensureAlloc chunk after | .ensureCas chunk _ after =>
      chunk = chunkOf idx ∧ after = .pushed idx
  | _ => False

omit [Key K] in
theorem AfterEnsure.About.pushing {present : Nat → Prop} {chunk idx : Nat} {after : AfterEnsure}
    (about : after.About present chunk) (claims : after.claims = some idx)
    : chunk = chunkOf idx ∧ after = .pushed idx := by
  cases after with
  | pushed other =>
      cases claims
      exact ⟨about, rfl⟩
  | reserving => cases claims

namespace Sys

section

variable {s : Sys T K V E}

omit [Key K] in
/-- Whoever has claimed an index is about to exchange the pointer of its chunk. -/
theorem Claimed.pushes (claimed : s.Claimed) {t : T} {idx : Nat}
    (claims : (s.pc t).claims = some idx)
    : (s.pc t).Pushing idx := by
  have ensures := claimed.ensures t
  cases about : s.pc t with
  | ensureLoad chunk after | ensureAlloc chunk after =>
      rw [about] at claims ensures
      exact AfterEnsure.About.pushing ensures claims
  | ensureCas chunk new after =>
      rw [about] at claims ensures
      exact AfterEnsure.About.pushing ensures.2 claims
  | _ =>
      rw [about] at claims
      cases claims

omit [Key K] in
/-- The chunk of an index that has been handed out is there, or its writer is on the way. -/
theorem Claimed.present_or_pushing (claimed : s.Claimed) {idx : Nat}
    (handed : idx ∈ handedOut s.trace)
    : s.present idx ∨ ∃ t, (s.pc t).Pushing idx := by
  rcases claimed.served idx handed with present | ⟨t, claims⟩
  · exact Or.inl present
  · exact Or.inr ⟨t, claimed.pushes claims⟩

/-- An index that has no chunk is only waited for by who looks it up, while its writer is on the
way, and it is not that of a stored value.
-/
theorem Reaching.waits (reaching : s.Reaching) (claimed : s.Claimed) {t : T} {idx : Nat}
    {next : Pc K V E} (about : s.pc t = .waitForChunk idx next) (missing : ¬ s.present idx)
    : next.looksUp = true
      ∧ (∀ actor key stored, .published actor key stored ∈ s.trace → KeyData.idx key ≠ idx)
      ∧ ∃ u, (s.pc u).Pushing idx := by
  have mine := reaching.pcs t
  rw [about] at mine
  have looks : next.looksUp = true := by
    rw [← Bool.not_eq_false]
    exact fun other => missing (mine.2.1 other).2
  refine ⟨looks, ?_, ?_⟩
  · rintro actor key stored published rfl
    exact missing (reaching.published actor key stored published).2
  · exact (claimed.present_or_pushing (mine.1 looks)).resolve_left missing

end

end Sys

open Sys in
/-- In every run in which no allocation fails, an index below the length has its chunk unless an
activity is between claiming it and installing the chunk. Slots that are occupied, referenced or
free have their chunks. So only lookups wait, of indices at which no value was ever stored, and
only while the writer is on the way; if none is, every wait is over.
-/
theorem waits_only_for_writers [DecidableEq T] [Fintype T] {dbg : Bool} {s : Sys T K V E}
    (run : Relation.ReflTransGen (SuppliedNext dbg) (.withKey T K V E) s)
    : (∀ idx < s.len, s.chunks (chunkOf idx) = none → ∃ t, (s.pc t).Pushing idx)
      ∧ (∀ idx,
          (s.slots idx).version % 2 = 1
          ∨ (s.slots idx).refCount ≠ 0
          ∨ (∃ guard ∈ s.guards, KeyData.idx guard.key = idx)
          ∨ (∃ free, s.FreeList free ∧ idx ∈ free) →
            (s.chunks (chunkOf idx)).isSome)
      ∧ (∀ t idx next, s.pc t = .waitForChunk idx next → s.chunks (chunkOf idx) = none →
          next.looksUp = true
          ∧ (∀ actor key stored, .published actor key stored ∈ s.trace → KeyData.idx key ≠ idx)
          ∧ ∃ u, (s.pc u).Pushing idx)
      ∧ ((∀ t idx, ¬ (s.pc t).Pushing idx) →
          ∀ t idx next s', s.pc t = .waitForChunk idx next → step dbg s t .go = some s' →
            s' = s.goto t next) := by
  have reachable : Reachable dbg s :=
    Relation.ReflTransGen.mono (fun _ _ => SuppliedNext.next) _ _ run
  have granted : Relation.ReflTransGen (GrantedStep dbg) (.withKey T K V E) s :=
    Relation.ReflTransGen.mono (fun _ _ next => next.supplied.granted) _ _ run
  obtain ⟨claimed, _⟩ := Claimed.withKey.of_granted .withKey granted
  have reaching := reaching_of_run granted
  have waits (t : T) (idx : Nat) (next : Pc K V E) (about : s.pc t = .waitForChunk idx next)
      (missing : ¬ s.present idx) := reaching.waits claimed about missing
  refine ⟨fun idx within missing => ?_, fun idx named => ?_, fun t idx next about missing => ?_,
    fun quiet t idx next s' about found => ?_⟩
  · refine (claimed.present_or_pushing (claimed.filled idx within)).resolve_left ?_
    rw [present, missing]
    exact Bool.false_ne_true
  · obtain ⟨_, inv⟩ := reachable.inv
    rcases named with odd | referenced | ⟨guard, member, rfl⟩ | ⟨free, list, member⟩
    · exact reachable.placed.values idx (inv.data_of_taken (Or.inl odd))
    · exact reachable.placed.values idx (inv.data_of_taken (Or.inr referenced))
    · exact (reaching.guards guard member).2
    · exact (reaching.housed_of_free list idx member).2
  · apply waits t idx next about
    rw [present, missing]
    exact Bool.false_ne_true
  · rcases step_wait about found with ⟨_, reached⟩ | ⟨missing, _⟩
    · exact reached
    · obtain ⟨_, _, u, pushing⟩ := waits t idx next about missing
      exact absurd pushing (quiet u idx)

/-- One activity has claimed the first index, and another one looks it up. -/
def lookUpWhilePushing : List (Bool × Choice UInt64 Nat Empty) :=
  Sys.turns false [.call .tryInsertWithKey, .go, .go]
  ++ Sys.turns true [.call (.containsKey ((1 : UInt64) <<< 32)), .go]

open Sys in
/-- The one that looks the index up waits for the one that has claimed it. -/
theorem waits_only_for_writers_lookUpWhilePushing
    : ∃ s : Sys Bool UInt64 Nat Empty,
        s.pc true = .waitForChunk 0 (.containsVersion ((1 : UInt64) <<< 32))
        ∧ s.chunks 0 = none
        ∧ ∃ u, (s.pc u).Pushing 0 := by
  have found : (Sys.run false (.withKey Bool UInt64 Nat Empty) lookUpWhilePushing).map
      (fun s => (s.pc true, s.chunks 0))
      = some (.waitForChunk 0 (.containsVersion ((1 : UInt64) <<< 32)), none) := by
    rfl
  obtain ⟨s, reached, after⟩ := Option.map_eq_some_iff.mp found
  simp only [Prod.mk.injEq] at after
  obtain ⟨about, missing⟩ := after
  have run : Relation.ReflTransGen (SuppliedNext false) (.withKey Bool UInt64 Nat Empty) s :=
    suppliedNext_of_run reached (by decide +kernel)
  exact ⟨s, about, missing, ((waits_only_for_writers run).2.2.1 true 0 _ about missing).2.2⟩

end AtomicSlotMap
