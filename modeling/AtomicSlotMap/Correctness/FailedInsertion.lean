import AtomicSlotMap.Correctness.FullMap
import AtomicSlotMap.Correctness.ChunkOrder
import AtomicSlotMap.History.Contents

/-! Insertions whose closure returns an error. On a single thread they put the slot back that they
had taken or pushed, and change nothing that the map shows.
-/

namespace AtomicSlotMap

variable {T K V E : Type} [Key K]

namespace Sys

/-- The slots with another successor for one of them. -/
def relinked (s : Sys T K V E) (idx next : Nat) : Nat → Slot V :=
  Function.update s.slots idx { s.slots idx with nextFree := next }

/-- The state with `free_head` exchanged for this index, under the next tag. -/
def headed (s : Sys T K V E) (idx : Nat) : Sys T K V E :=
  { s with freeHead := packFreeHead (wrappingAdd (unpackFreeHead s.freeHead).1 1) idx }

/-- The stages of an insertion that puts its slot back. -/
inductive PuttingBack (s₀ : Sys T K V E) (t : T) (idx : Nat) (err : E) : Nat → Sys T K V E → Prop
  | waiting {s} (dbg : Bool)
    (about : s.pc t = .waitForChunk idx (.exclusivelyOwned dbg idx (.pushLoad idx (.failed err))))
    (same : s₀.Undisturbed s)
    : PuttingBack s₀ t idx err 6 s
  | assertRefCount {s}
    (about
      : s.pc t = .assertRefCount idx (.assertVersion idx (.pushLoad idx (.failed err))))
    (same : s₀.Undisturbed s)
    : PuttingBack s₀ t idx err 5 s
  | assertVersion {s} (about : s.pc t = .assertVersion idx (.pushLoad idx (.failed err)))
    (same : s₀.Undisturbed s)
    : PuttingBack s₀ t idx err 4 s
  | loading {s} (about : s.pc t = .pushLoad idx (.failed err)) (same : s₀.Undisturbed s)
    : PuttingBack s₀ t idx err 3 s
  | storing {s} (next : Nat) (about : s.pc t = .pushStore idx s₀.freeHead (.failed err))
    (same : s₀.Keeps (s₀.relinked idx next) s)
    : PuttingBack s₀ t idx err 2 s
  | exchanging {s} (about : s.pc t = .pushCas idx s₀.freeHead (.failed err))
    (linked : s₀.Keeps (s₀.relinked idx (unpackFreeHead s₀.freeHead).2) s)
    : PuttingBack s₀ t idx err 1 s
  | done {s} (about : s.pc t = .ret (.failed err))
    (pushed : (s₀.headed idx).Keeps (s₀.relinked idx (unpackFreeHead s₀.freeHead).2) s)
    : PuttingBack s₀ t idx err 0 s

section

variable [DecidableEq T] [Fintype T] {dbg : Bool} {s₀ s s' : Sys T K V E} {t : T}
  {idx version rank : Nat} {err : E} {choice : Choice K V E} {free : List Nat}

omit [Key K] [Fintype T] in
/-- After its debug assertions the insertion loads the head. -/
theorem PuttingBack.owned (dbg : Bool) (same : s₀.Undisturbed s)
    : ∃ rank ≤ 5, PuttingBack s₀ t idx err rank
        (s.goto t (.exclusivelyOwned dbg idx (.pushLoad idx (.failed err)))) := by
  cases dbg with
  | true => exact ⟨5, by omega, .assertRefCount (pc_goto_self _ t _) (same.goto _)⟩
  | false => exact ⟨3, by omega, .loading (pc_goto_self _ t _) (same.goto _)⟩

/-- A slot that is put back goes through these stages, by cases on the stage. -/
theorem PuttingBack.turn (puttingBack : PuttingBack s₀ t idx err rank s) (vacant : s₀.Vacant idx)
    (running : (s.pc t).paused = false) (found : step dbg s t choice = some s')
    : ∃ rank', PuttingBack s₀ t idx err rank' s'
        ∧ (choice = .go → (s₀.chunks (chunkOf idx)).isSome → rank' < rank) := by
  cases puttingBack with
  | done about =>
      rw [about] at running
      cases running
  | waiting dbg about same =>
      rcases step_wait about found with ⟨_, rfl⟩ | ⟨absent, rfl⟩
      · obtain ⟨rank', less, stage⟩ := PuttingBack.owned dbg same
        exact ⟨rank', stage, fun _ _ => by omega⟩
      · rw [same.chunks] at absent
        exact ⟨6, .waiting dbg about same, fun _ present => absurd present absent⟩
  | assertRefCount about same =>
      cases step_assertRefCount about (by rw [same.slots]; exact vacant.unreferenced) found
      exact ⟨4, .assertVersion (pc_goto_self _ t _) (same.goto _), fun _ _ => by omega⟩
  | assertVersion about same =>
      cases step_assertVersion about (by rw [same.slots]; exact vacant.unoccupied) found
      exact ⟨3, .loading (pc_goto_self _ t _) (same.goto _), fun _ _ => by omega⟩
  | loading about same =>
      simp only [step, about, same.freeHead] at found
      cases Choice.eq_of_onGo found
      have kept : s₀.relinked idx (s₀.slots idx).nextFree = s₀.slots :=
        Function.update_eq_self idx s₀.slots
      refine ⟨2, .storing (s₀.slots idx).nextFree (pc_goto_self _ t _) ?_, fun _ _ => by omega⟩
      rw [kept]
      exact same.goto _
  | storing next about same =>
      simp only [step, about] at found
      cases Choice.eq_of_onGo found
      refine ⟨1, .exchanging (pc_goto_self _ t _) ?_, fun _ _ => by omega⟩
      refine ⟨?_, same.chunks, same.len, same.freeHead, same.numElems, same.guards, same.dropped⟩
      change Function.update s.slots idx { s.slots idx with nextFree := _ } = _
      rw [same.slots, relinked, relinked, Function.update_idem, Function.update_self]
  | exchanging about linked =>
      simp only [step, about, linked.freeHead, BEq.rfl] at found
      cases choice with
      | go =>
          cases found
          refine ⟨0, .done (pc_goto_self _ t _) ?_, fun _ _ => by omega⟩
          refine ⟨linked.slots, linked.chunks, linked.len, rfl, linked.numElems, linked.guards, ?_⟩
          intro actor place data
          rw [headed, ← linked.dropped]
          exact ⟨fun member => (List.mem_cons.mp member).resolve_left (by simp),
            List.mem_cons_of_mem _⟩
      | spurious =>
          cases found
          exact ⟨2, .storing _ (pc_goto_self _ t _) (linked.goto _), fun going => by cases going⟩
      | _ => cases found

theorem PuttingBack.outline (vacant : s₀.Vacant idx)
    : Outline dbg t (s₀.chunks (chunkOf idx)).isSome (PuttingBack s₀ t idx err) where
  running := by
    intro rank s puttingBack
    cases puttingBack with
    | waiting _ about | assertRefCount about | assertVersion about | loading about
    | storing _ about | exchanging about =>
        rw [about]
        rfl
  turn := fun _ _ _ _ puttingBack running _ found => puttingBack.turn vacant running found

/-- A closure that fails makes its insertion put the slot back. -/
theorem PuttingBack.start (dbg : Bool) (about : s.pc t = .closure idx version) (err : E)
    : ∃ going, step dbg s t (.closureErr err) = some going
        ∧ PuttingBack s t idx err 6 going := by
  refine ⟨(s.answer t (.failed err)).goto t (.pushFreeIndex dbg idx (.failed err)), ?_, ?_⟩
  · simp only [step, about]
  · exact .waiting dbg (pc_goto_self _ t _) (((Undisturbed.refl s).answer _).goto _)

omit [Key K] [DecidableEq T] [Fintype T] in
/-- The last stage is the answer. -/
theorem PuttingBack.answers (puttingBack : PuttingBack s₀ t idx err 0 s)
    : s.pc t = .ret (.failed err)
      ∧ (s₀.headed idx).Keeps (s₀.relinked idx (unpackFreeHead s₀.freeHead).2) s := by
  cases puttingBack with
  | done about pushed => exact ⟨about, pushed⟩

omit [Key K] [DecidableEq T] [Fintype T] in
@[simp] theorem relinked_self (s : Sys T K V E) (idx next : Nat)
    : (s.relinked idx next idx).nextFree = next :=
  congrArg Slot.nextFree (Function.update_self idx _ s.slots)

omit [Key K] [DecidableEq T] [Fintype T] in
/-- Another successor changes nothing else, by cases on the slot. -/
theorem relinked_eq (s : Sys T K V E) (idx next place : Nat)
    : (s.relinked idx next place).version = (s.slots place).version
      ∧ (s.relinked idx next place).refCount = (s.slots place).refCount
      ∧ (s.relinked idx next place).data = (s.slots place).data
      ∧ (place ≠ idx → (s.relinked idx next place).nextFree = (s.slots place).nextFree) := by
  rw [relinked]
  by_cases same : place = idx
  · subst place
    rw [Function.update_self]
    exact ⟨rfl, rfl, rfl, fun apart => absurd rfl apart⟩
  · rw [Function.update_of_ne same]
    exact ⟨rfl, rfl, rfl, fun _ => rfl⟩

end

/-- What a failed insertion leaves: the map as it was, with one more slot on top of the free
list.
-/
structure LeftBy (s : Sys T K V E) (idx : Nat) (s' : Sys T K V E) : Prop where
  bound : s'.bound = s.bound
  numElems : s'.numElems = s.numElems
  versions : ∀ place, (s'.slots place).version = (s.slots place).version
  refCounts : ∀ place, (s'.slots place).refCount = (s.slots place).refCount
  len : s'.len = s.len
  chunks : s'.chunks = s.chunks
  guards : s'.guards = s.guards
  dropped : ∀ actor idx data, .dropped actor idx data ∈ s'.trace ↔ .dropped actor idx data ∈ s.trace
  freeList : ∀ free, s.FreeList free → s'.FreeList (idx :: free)

section

variable {s s' : Sys T K V E} {idx : Nat}

omit [Key K] in
/-- The head is the index that was put back. -/
theorem unpackFreeHead_headed (s : Sys T K V E) (small : idx < 2 ^ 32)
    : (unpackFreeHead (s.headed idx).freeHead).2 = idx := by
  have tag : wrappingAdd (unpackFreeHead s.freeHead).1 1 < 2 ^ 32 := Nat.mod_lt _ (by omega)
  simp only [headed, unpackFreeHead_pack tag small]

omit [Key K] in
/-- A slot that is not free goes on top of the free list. -/
theorem Keeps.leftBy
    (pushed : (s.headed idx).Keeps (s.relinked idx (unpackFreeHead s.freeHead).2) s')
    (small : idx < SENTINEL) (taken : ∀ free, s.FreeList free → idx ∉ free)
    : s.LeftBy idx s' where
  bound := by
    refine bound_congr (fun place => ?_) fun place _ => ?_
    · rw [pushed.slots]
      exact (s.relinked_eq idx _ place).1
    · rw [pushed.slots]
      exact (s.relinked_eq idx _ place).2.2.1
  numElems := pushed.numElems
  versions place := by
    rw [pushed.slots]
    exact (s.relinked_eq idx _ place).1
  refCounts place := by
    rw [pushed.slots]
    exact (s.relinked_eq idx _ place).2.1
  len := pushed.len
  chunks := pushed.chunks
  guards := pushed.guards
  dropped := pushed.dropped
  freeList := by
    intro free chain
    have word : SENTINEL < 2 ^ 32 := by decide
    have linked : Library.Chain
        (fun place => (s.relinked idx (unpackFreeHead s.freeHead).2 place).nextFree) SENTINEL
        (unpackFreeHead s.freeHead).2 free := by
      refine chain.congr fun cell member => (s.relinked_eq idx _ cell).2.2.2 ?_
      rintro rfl
      exact taken free chain member
    rw [FreeList, pushed.slots, pushed.freeHead, unpackFreeHead_headed s (by omega)]
    exact linked.push (Nat.ne_of_lt small) (s.relinked_self idx _)

end

-----------------------------------------------------------------------------------------
-- The next insertion
-----------------------------------------------------------------------------------------

section

variable [DecidableEq T] [Fintype T] {dbg : Bool} {s₀ s s' : Sys T K V E} {t : T}

/-- The next insertion is offered the key of this index and version, and returns it. -/
def Offers (dbg : Bool) (s : Sys T K V E) (idx version : Nat) : Prop :=
  ∀ rested u, s.Undisturbed rested → rested.pc u = .idle →
    (∀ offered, Ends dbg u (.call .tryInsertWithKey) rested offered →
      offered.pc u = .closure idx version
      ∧ ∀ value s', Ends dbg u (.closureOk value) offered s' → s'.Inserted u idx version value)
    ∧ ∃ called, step dbg rested u (.call .tryInsertWithKey) = some called
        ∧ Library.Eventually (GoTurn dbg u)
            (fun offered =>
              offered.pc u = .closure idx version
              ∧ ∀ value, ∃ going, step dbg offered u (.closureOk value) = some going
                  ∧ Library.Eventually (Turn dbg u) (·.Inserted u idx version value) going)
            called

/-- The first free slot is offered, with its next odd version. -/
theorem offers_of_head {idx version : Nat} (head : (unpackFreeHead s.freeHead).2 = idx)
    (more : idx ≠ SENTINEL) (vacant : s.Vacant idx)
    (present : (s.chunks (chunkOf idx)).isSome)
    (next : version = (s.slots idx).version ||| 1)
    : s.Offers dbg idx version := by
  intro rested u same rests
  obtain ⟨called, found, loads, undisturbed⟩ := exists_popLoad (t := u) dbg rests
  have start : Popping rested u idx 9 called := .loading loads undisturbed
  have vacant' : rested.Vacant idx := vacant.congr (by rw [same.slots]) (by rw [same.slots])
  have outline : Outline dbg u _ (Popping rested u idx) :=
    Popping.outline (by rw [same.freeHead]; exact head) more vacant'
  have offers (offered : Sys T K V E) (popping : Popping rested u idx 0 offered) :
      offered.pc u = .closure idx version
      ∧ ∀ value, ∃ going, step dbg offered u (.closureOk value) = some going
          ∧ Library.Eventually (Turn dbg u) (·.Inserted u idx version value) going := by
    obtain ⟨closure, taken⟩ := popping.offers
    rw [same.slots, ← next] at closure
    have unused : offered.Vacant idx :=
      vacant'.congr (by rw [taken.slots]) (by rw [taken.slots])
    have housed : (offered.chunks (chunkOf idx)).isSome := by
      rw [taken.chunks]
      change (rested.chunks _).isSome
      rw [same.chunks]
      exact present
    refine ⟨closure, fun value => ?_⟩
    obtain ⟨going, answered, eventually⟩ :=
      exists_inserted dbg closure (fun _ => unused) housed value
    exact ⟨going, answered, eventually.mono fun _ reached => reached.1⟩
  refine ⟨fun offered ends => ?_, called, found, ?_⟩
  · obtain ⟨_, found', turns, paused⟩ := ends
    cases found.symm.trans found'
    obtain ⟨closure, inserts⟩ := offers offered (outline.final start turns paused)
    refine ⟨closure, fun value s' ended => ?_⟩
    obtain ⟨going, answered, eventually⟩ := inserts value
    refine ended.reached answered eventually ?_
    rintro after ⟨stored, _, returned⟩
    rw [returned]
    rfl
  · exact (outline.eventually (by rw [same.chunks]; exact present) start).mono offers

-----------------------------------------------------------------------------------------
-- Failed insertions
-----------------------------------------------------------------------------------------

/-- The slot of a closure is unused, not free, and the closure got its next odd version. -/
theorem Inv.offered {free : List Nat} {idx version : Nat} (inv : s.Inv free)
    (about : s.pc t = .closure idx version)
    : s.Vacant idx
      ∧ idx < s.len
      ∧ (∀ free, s.FreeList free → idx ∉ free)
      ∧ version = (s.slots idx).version ||| 1 := by
  have role : ((s.view free).role t) = .reserved idx := by
    change (s.pc t).role = _
    rw [about]
    rfl
  have holds : (s.pc t).holds = some idx := by
    rw [about]
    rfl
  have phase := inv.owned.roles t idx (by rw [role]; rfl)
  rw [role] at phase
  have words := inv.owned.slots idx
  rw [phase] at words
  have answerable : ((s.view free).role t).holds = some idx := by
    rw [role]
    rfl
  have within : idx < s.len := inv.owned.holds_lt_len answerable
  have fits := inv.fits t
  rw [about] at fits
  exact ⟨⟨words.2.1, words.1⟩, within, (inv.exclusive holds).2.2.2, fits⟩

/-- The first free slot is unused. -/
theorem Inv.vacant_of_free {free : List Nat} {idx : Nat} (inv : s.Inv free) (member : idx ∈ free)
    : s.Vacant idx := by
  have words := inv.owned.slots idx
  rw [(inv.owned.free idx).mp member] at words
  exact ⟨words.2.1, words.1⟩

/-- A slot that has been put back has its chunk, without which the call would have waited. -/
theorem PuttingBack.arrived {idx : Nat} {err : E} {going : Sys T K V E}
    (start : PuttingBack s₀ t idx err 6 going)
    (run : Relation.ReflTransGen (Turn dbg t) going s') (paused : (s'.pc t).paused = true)
    : (s₀.chunks (chunkOf idx)).isSome := by
  by_contra absent
  cases start with
  | waiting dbg about same =>
      rw [← same.chunks] at absent
      rw [eq_of_waits about absent run, about] at paused
      cases paused

/-- What a failed insertion leaves of the map that it was called on, if its closure makes no
calls: the free list, or the one slot that was pushed for it.
-/
structure Restored (s₀ : Sys T K V E) (free : List Nat) (idx : Nat) (s' : Sys T K V E)
    : Prop where
  kept : free ≠ [] → s'.FreeList free
  grown : free = [] → idx = s₀.len ∧ s'.FreeList [idx]
  capacity : s'.capacity ≠ s₀.capacity → free = [] ∧ s₀.chunks (chunkOf idx) = none

/-- An insertion whose closure makes no calls and fails gives the free list back. -/
theorem restored {free : List Nat} {idx version : Nat} (inv : s₀.Inv free)
    (rests : s₀.pc t = .idle) (ends : Ends dbg t (.call .tryInsertWithKey) s₀ s)
    (about : s.pc t = .closure idx version) (left : s.LeftBy idx s')
    : s₀.Restored free idx s' := by
  obtain ⟨called, found, loads, undisturbed⟩ := exists_popLoad (t := t) dbg rests
  cases free with
  | nil =>
      have head : (unpackFreeHead s₀.freeHead).2 = SENTINEL := inv.chain
      have grown := ends.reached found
        (eventually_grown loads (by rw [undisturbed.freeHead]; exact head))
        (fun after reached => by rw [reached.1]; rfl)
      obtain ⟨closure, _, kept, _, words⟩ := grown
      rw [about, undisturbed.len] at closure
      cases closure
      refine ⟨fun more => absurd rfl more, fun _ => ⟨rfl, left.freeList [] ?_⟩, fun changed => ?_⟩
      · change (unpackFreeHead s.freeHead).2 = SENTINEL
        rw [words.freeHead]
        change (unpackFreeHead called.freeHead).2 = SENTINEL
        rw [undisturbed.freeHead]
        exact head
      · refine ⟨rfl, Option.not_isSome_iff_eq_none.mp fun housed => changed ?_⟩
        rw [← undisturbed.len, ← undisturbed.chunks] at housed
        exact capacity_congr (left.chunks.trans ((kept housed).trans undisturbed.chunks))
  | cons top rest =>
      obtain ⟨first, more, tail⟩ := inv.chain
      subst first
      have small : (s₀.slots (unpackFreeHead s₀.freeHead).2).nextFree < 2 ^ 32 :=
        inv.next_lt (tail.head_eq_or_mem.imp_right (List.mem_cons_of_mem _))
      have start : Popping called t (unpackFreeHead s₀.freeHead).2 9 called :=
        .loading loads (Undisturbed.refl called)
      have vacant : called.Vacant (unpackFreeHead s₀.freeHead).2 :=
        (inv.vacant_of_free List.mem_cons_self).congr
          (by rw [undisturbed.slots]) (by rw [undisturbed.slots])
      have head : (unpackFreeHead called.freeHead).2 = (unpackFreeHead s₀.freeHead).2 := by
        rw [undisturbed.freeHead]
      obtain ⟨_, found', turns, paused⟩ := ends
      cases found.symm.trans found'
      obtain ⟨closure, taken⟩ :=
        ((Popping.outline head more vacant).final start turns paused).offers
      rw [about] at closure
      cases closure
      have chunks : s.chunks = s₀.chunks := taken.chunks.trans undisturbed.chunks
      refine ⟨fun _ => left.freeList rest ?_, nofun, fun changed => ?_⟩
      · rw [FreeList, taken.slots, taken.freeHead, undisturbed.slots]
        rw [unpackFreeHead_popped called (by rw [head, undisturbed.slots]; exact small), head,
          undisturbed.slots]
        exact tail
      · exact absurd (capacity_congr (left.chunks.trans chunks)) changed

end

end Sys

open Sys in
/-- On a single thread, an insertion whose closure has failed, after whatever calls of its own, can
only end by returning the error, with the map as the closure left it and its slot on top of the
free list; if no allocation has failed it does end, as soon as its weak exchange does not fail
spuriously. If the closure made no calls then the free list is that from before the insertion,
or the one new slot. The next insertion is offered the same key again, and returns it.
-/
theorem failed_insertion_invisible [DecidableEq T] [Fintype T] {dbg : Bool} {s : Sys T K V E}
    (solo : Solo dbg s) {t : T} {idx version : Nat} (about : s.pc t = .closure idx version)
    (alone : s.Alone t) (err : E)
    : (∀ s', Ends dbg t (.closureErr err) s s' →
        s'.pc t = .ret (.failed err)
        ∧ s.LeftBy idx s'
        ∧ s'.Offers dbg idx version
        ∧ ∀ s₀ free, Solo dbg s₀ → s₀.pc t = .idle → s₀.FreeList free →
            Ends dbg t (.call .tryInsertWithKey) s₀ s → s₀.Restored free idx s')
      ∧ (Relation.ReflTransGen (SuppliedStep dbg) (.withKey T K V E) s →
          ∃ going, step dbg s t (.closureErr err) = some going
            ∧ Library.Eventually (GoTurn dbg t)
                (fun s' => s'.pc t = .ret (.failed err) ∧ s.LeftBy idx s') going) := by
  obtain ⟨free, inv⟩ := solo.calm.reachable.inv
  obtain ⟨vacant, within, taken, next⟩ := inv.offered about
  have bound : s.len < 2 ^ 32 := inv.owned.bound
  have small : idx < SENTINEL := by
    simp only [SENTINEL]
    omega
  have outline : Outline dbg t _ (PuttingBack s t idx err) := PuttingBack.outline vacant
  obtain ⟨going, found, start⟩ := PuttingBack.start dbg about err
  have last (s' : Sys T K V E) (puttingBack : PuttingBack s t idx err 0 s') :
      s'.pc t = .ret (.failed err) ∧ s.LeftBy idx s' := by
    obtain ⟨answered, pushed⟩ := puttingBack.answers
    exact ⟨answered, pushed.leftBy small taken⟩
  refine ⟨fun s' ends => ?_, fun run => ⟨going, found, ?_⟩⟩
  · obtain ⟨_, found', turns, paused⟩ := ends
    cases found.symm.trans found'
    have puttingBack := outline.final start turns paused
    obtain ⟨answered, left⟩ := last s' puttingBack
    refine ⟨answered, left, offers_of_head ?_ (Nat.ne_of_lt small) ?_ ?_ ?_, ?_⟩
    · rw [puttingBack.answers.2.freeHead, unpackFreeHead_headed s (by omega)]
    · exact vacant.congr (left.refCounts idx) (left.versions idx)
    · rw [left.chunks]
      exact start.arrived turns paused
    · rw [left.versions]
      exact next
    · intro s₀ free solo₀ rests chain inserts
      obtain ⟨free', inv₀⟩ := solo₀.calm.reachable.inv
      cases Library.Chain.unique chain inv₀.chain
      exact restored inv₀ rests inserts about left
  · refine (outline.eventually ?_ start).mono last
    exact housed_of_alone run (by rw [about]; rfl) alone within

/-- Whether a single activity may take its step within a call, in a run without panics. -/
def Sys.running? [DecidableEq T] [Fintype T] (s : Sys T K V E) (t : T) : Bool :=
  s.within? t && decide (s.Alone t) && !(s.pc t).paused

open Sys in
/-- A first insertion fails: its slot is the only free one, and the next insertion gets it. -/
theorem failed_insertion_invisible_first
    : ∃ s s' : Sys Unit UInt64 Nat Unit,
        Ends true () (.call .tryInsertWithKey) (.withKey Unit UInt64 Nat Unit) s
        ∧ Ends true () (.closureErr ()) s s'
        ∧ s'.pc () = .ret (.failed ())
        ∧ s.LeftBy 0 s'
        ∧ s'.FreeList [0]
        ∧ s'.Offers true 0 1 := by
  have found : ((step true (.withKey Unit UInt64 Nat Unit) () (.call .tryInsertWithKey)).bind
      fun called => runIf (fun s t => s.running? t && s.calm?) true called
        (turns () (List.replicate 5 .go))).map
      (fun s => (s.calm?, (s.pc ()).offered?)) = some (true, some (0, 1)) := by
    decide +kernel
  obtain ⟨s, reached, after⟩ := Option.map_eq_some_iff.mp found
  obtain ⟨called, first, rest⟩ := Option.bind_eq_some_iff.mp reached
  obtain ⟨calm, offered⟩ := Prod.mk.inj after
  have about : s.pc () = .closure 0 1 := Pc.eq_closure offered
  have alone (s : Sys Unit UInt64 Nat Unit) : s.Alone () := fun _ apart => absurd rfl apart
  obtain ⟨calm', awake⟩ := awake_of_runIf rest calm
  have start : SoloNext true (.withKey Unit UInt64 Nat Unit) called := by
    refine ⟨(), _, within_of_within? rfl, alone _, first, fun unwinding => ?_⟩
    have unwound := of_decide_eq_true calm' ()
    rw [unwinding] at unwound
    cases unwound
  have solo : Solo true s := by
    refine .head start (Relation.ReflTransGen.mono ?_ _ _ awake)
    rintro before after ⟨t, choice, checked, found, awake⟩
    rw [running?, Bool.and_eq_true, Bool.and_eq_true] at checked
    exact ⟨t, choice, within_of_within? checked.1.1, alone before, found, awake⟩
  have turns : Relation.ReflTransGen (Turn true ()) called s := by
    refine turns_of_runIf rest (fun before checked => ?_) rfl
    rw [Bool.and_eq_true, running?, Bool.and_eq_true, Bool.not_eq_true'] at checked
    exact checked.1.2
  have supplied : Relation.ReflTransGen (SuppliedStep true) (.withKey Unit UInt64 Nat Unit) s :=
    .head ⟨(), _, rfl, first⟩ (Relation.ReflTransGen.mono
      (fun _ _ turn => ⟨(), turn.2⟩) _ _ turns)
  have inserts : Ends true () (.call .tryInsertWithKey) (.withKey Unit UInt64 Nat Unit) s :=
    ⟨called, first, turns, by rw [about]; rfl⟩
  obtain ⟨invisible, eventually⟩ := failed_insertion_invisible solo about (alone s) ()
  obtain ⟨going, found, eventually⟩ := eventually supplied
  obtain ⟨s', run, answered, _⟩ := eventually.exists_run
  have ends : Ends true () (.closureErr ()) s s' :=
    ⟨going, found, Relation.ReflTransGen.mono (fun _ _ => GoTurn.turn) _ _ run,
      by rw [answered]; rfl⟩
  obtain ⟨_, left, offers, restored⟩ := invisible s' ends
  have free : (Sys.withKey Unit UInt64 Nat Unit).FreeList [] := by
    change (unpackFreeHead (packFreeHead 0 SENTINEL)).2 = SENTINEL
    decide
  exact ⟨s, s', inserts, ends, answered, left, ((restored _ [] .refl rfl free inserts).grown rfl).2,
    offers⟩

end AtomicSlotMap
