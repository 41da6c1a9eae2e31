import AtomicSlotMap.Ownership.View

/-! The program refines the ownership protocol: within the limits of the words, each step is
matched by steps of the protocol and keeps the invariant that ties the two.
-/

namespace AtomicSlotMap

variable {T K V E : Type} [Key K]

/-- What a program counter knows survives a step that leaves alone its slot, the guard it
borrows and, unless the free list was updated, the head of the free list.
-/
theorem Pc.Fits.frame {s s' : Sys T K V E} {pc : Pc K V E} (fits : pc.Fits s)
    (head
      : (s'.updates = s.updates ∧ s'.freeHead = s.freeHead
          ∧ ((unpackFreeHead s.freeHead).2 ≠ SENTINEL →
              (s'.slots (unpackFreeHead s.freeHead).2).nextFree
              = (s.slots (unpackFreeHead s.freeHead).2).nextFree))
        ∨ s'.updates = s.updates + 1)
    (own
      : ∀ idx, pc.role.holds = some idx →
          (s'.slots idx).version = (s.slots idx).version
          ∧ (s'.slots idx).nextFree = (s.slots idx).nextFree)
    (borrowed : ∀ guard ∈ s.guards, pc.borrows = some guard.id → guard ∈ s'.guards)
    : pc.Fits s' := by
  have observed {old seen : Nat} (before : s.Observed old seen) : s'.Observed old seen := by
    refine ⟨before.word, before.some, ?_, ?_⟩
    · have past := before.past
      rcases head with ⟨same, _⟩ | more <;> omega
    · intro now
      rcases head with ⟨same, word, _⟩ | more
      · rw [word]
        exact before.current (now.trans same)
      · have past := before.past
        omega
  have ensured {after : AfterEnsure} (before : after.Fits s)
      (mine : ∀ idx, (after.role : Role K V).holds = some idx →
        (s'.slots idx).version = (s.slots idx).version)
      : after.Fits s' := by
    cases after with
    | pushed idx => exact (mine idx rfl).trans before
    | reserving chunk maxChunk => trivial
  induction pc with
  | waitForChunk idx next ih => exact ih fits own borrowed
  | assertRefCount idx next ih => exact ⟨fits.1, ih fits.2 own borrowed⟩
  | assertVersion idx next ih => exact ⟨fits.1, ih fits.2 own borrowed⟩
  | popNext old seen => exact observed fits
  | popCas old next seen =>
      refine ⟨observed fits.1, ?_⟩
      intro now
      rcases head with ⟨same, word, kept⟩ | more
      · have earlier := now.trans same
        have isHead := fits.1.current earlier
        rw [isHead, kept (isHead ▸ fits.1.some), ← isHead]
        exact fits.2 earlier
      · have past := fits.1.past
        omega
  | closure idx version => exact fits.trans (by rw [(own idx rfl).1])
  | insertWrite idx version value => exact fits.trans (by rw [(own idx rfl).1])
  | insertRefCount idx version stored => exact fits.trans (by rw [(own idx rfl).1])
  | insertPublish idx version stored => exact fits.trans (by rw [(own idx rfl).1])
  | ensureLoad chunk after => exact ensured fits fun idx holds => (own idx holds).1
  | ensureAlloc chunk after => exact ensured fits fun idx holds => (own idx holds).1
  | ensureCas chunk new after => exact ensured fits fun idx holds => (own idx holds).1
  | ensureDealloc new after => exact ensured fits fun idx holds => (own idx holds).1
  | pushCas idx old after =>
      exact (own idx (Role.holds_of_vacant after.vacant_role)).2.trans fits
  | dropValue idx after => exact fits
  | removeCas key current => exact fits
  | acquireCas key getter refcount => exact fits
  | cloneInc guard => exact borrowed guard fits rfl
  | _ => trivial

namespace Sys

variable [DecidableEq T]

/-- A step that leaves the free list, the versions and the links alone and drops no guard. -/
structure Quiet (s s' : Sys T K V E) : Prop where
  freeHead : s'.freeHead = s.freeHead
  updates : s'.updates = s.updates
  versions : ∀ idx, (s'.slots idx).version = (s.slots idx).version
  links : ∀ idx, (s'.slots idx).nextFree = (s.slots idx).nextFree
  guards : ∀ guard ∈ s.guards, guard ∈ s'.guards

omit [DecidableEq T] in
/-- Quiet steps disturb no program counter. -/
theorem Quiet.fits {s s' : Sys T K V E} (quiet : s.Quiet s') {pc : Pc K V E}
    (fits : pc.Fits s)
    : pc.Fits s' :=
  fits.frame (Or.inl ⟨quiet.updates, quiet.freeHead, fun _ => quiet.links _⟩)
    (fun idx _ => ⟨quiet.versions idx, quiet.links idx⟩)
    (fun guard member _ => quiet.guards guard member)

variable [Fintype T] {s s' : Sys T K V E} {free free' : List Nat} {t : T}

/-- The general shape of a step of the program: it is matched by the protocol, it disturbs
only slots that the activity holds or that nobody holds, and its new locals fit.
-/
theorem Inv.advance (inv : s.Inv free)
    (run : Relation.ReflTransGen Ownership.Step (s.view free) (s'.view free'))
    (chain
      : Library.Chain (fun idx => (s'.slots idx).nextFree) SENTINEL
          (unpackFreeHead s'.freeHead).2 free')
    (head
      : s'.freeHead = packFreeHead (s'.updates % 2 ^ 32) (unpackFreeHead s'.freeHead).2)
    (versions : ∀ idx, (s'.slots idx).version < 2 ^ 32)
    (pcs : ∀ other ≠ t, s'.pc other = s.pc other)
    (mine : (s'.pc t).Fits s')
    (updates
      : (s'.updates = s.updates ∧ s'.freeHead = s.freeHead) ∨ s'.updates = s.updates + 1)
    (links
      : ∀ idx, (s'.slots idx).nextFree = (s.slots idx).nextFree
          ∨ (s.pc t).role.holds = some idx)
    (words
      : ∀ idx, (s'.slots idx).version = (s.slots idx).version
          ∨ (s.pc t).role.holds = some idx
          ∨ ((s.view free).phase idx).holder = none)
    (borrowed
      : ∀ other ≠ t, ∀ guard ∈ s.guards, (s.pc other).borrows = some guard.id →
          guard ∈ s'.guards)
    : s'.Inv free' where
  owned := Library.ReflTransGen.invariant run inv.owned fun _ _ known step => known.step step
  chain := chain
  head := head
  versions := versions
  fits := by
    intro other
    by_cases self : other = t
    · subst other
      exact mine
    · rw [pcs other self]
      refine (inv.fits other).frame ?_ ?_ (borrowed other self)
      · rcases updates with ⟨same, word⟩ | more
        · refine Or.inl ⟨same, word, ?_⟩
          intro some
          -- the head of the list is free, and a free slot is not held
          obtain ⟨rest, listed, _⟩ := inv.chain.exists_rest some
          rcases links (unpackFreeHead s.freeHead).2 with kept | holds
          · exact kept
          · have free : (s.view free).phase (unpackFreeHead s.freeHead).2 = .free :=
              (inv.owned.free _).mp (by
                show _ ∈ free
                rw [listed]
                exact List.mem_cons_self)
            have named := (inv.owned.roles t _ (Role.slot_of_holds holds)).holder_of_holds holds
            rw [free] at named
            cases named
        · exact Or.inr more
      · intro idx holds
        have apart : ¬ (s.pc t).role.holds = some idx := fun mine =>
          self (inv.owned.holder_unique mine holds)
        have named := (inv.owned.roles other _ (Role.slot_of_holds holds)).holder_of_holds holds
        refine ⟨?_, (links idx).resolve_right apart⟩
        rcases words idx with kept | mine | nobody
        · exact kept
        · exact absurd mine apart
        · rw [nobody] at named
          cases named

/-- A quiet step is matched by the protocol if its new locals fit. -/
theorem Inv.advance_quiet (inv : s.Inv free)
    (run : Relation.ReflTransGen Ownership.Step (s.view free) (s'.view free))
    (quiet : s.Quiet s') (pcs : ∀ other ≠ t, s'.pc other = s.pc other)
    (mine : (s'.pc t).Fits s)
    : s'.Inv free :=
  inv.advance (t := t) run
    (by
      rw [quiet.freeHead]
      exact inv.chain.congr fun idx _ => quiet.links idx)
    (by
      rw [quiet.freeHead, quiet.updates]
      exact inv.head)
    (fun idx => by rw [quiet.versions idx]; exact inv.versions idx)
    pcs (quiet.fits mine) (Or.inl ⟨quiet.updates, quiet.freeHead⟩)
    (fun idx => Or.inl (quiet.links idx)) (fun idx => Or.inl (quiet.versions idx))
    (fun _ _ guard member _ => quiet.guards guard member)

-----------------------------------------------------------------------------------------
-- Moves of one program counter
-----------------------------------------------------------------------------------------

/-- A freshly read head word is the current one. -/
theorem Inv.observed (inv : s.Inv free) (some : (unpackFreeHead s.freeHead).2 ≠ SENTINEL)
    : s.Observed s.freeHead s.updates where
  word := inv.head
  some := some
  past := Nat.le_refl _
  current := fun _ => rfl

end Sys

section

variable [DecidableEq T] [Fintype T] {s : Sys T K V E} {free : List Nat} {dbg : Bool}

omit [DecidableEq T] [Fintype T] in
theorem Getter.fits_missed (getter : Getter) : (getter.missed : Pc K V E).Fits s := by
  cases getter <;> trivial

omit [DecidableEq T] [Fintype T] in
theorem AfterPush.fits_resume (after : AfterPush K E)
    : (after.resume : Pc K V E).Fits s := by
  cases after with
  | missed getter => exact getter.fits_missed
  | _ => trivial

omit [DecidableEq T] [Fintype T] in
theorem AfterEnsure.fits_resume {after : AfterEnsure} (fits : after.Fits s)
    : (after.resume : Pc K V E).Fits s := by
  cases after with
  | pushed idx =>
      show 0 ||| 1 = (s.slots idx).version ||| 1
      rw [show (s.slots idx).version = 0 from fits]
  | reserving chunk maxChunk =>
      simp only [AfterEnsure.resume]
      split <;> trivial

omit [DecidableEq T] [Fintype T] in
theorem Pc.fits_exclusivelyOwned {idx : Nat} (next : Pc K V E) (fits : next.Fits s)
    (holds : next.role.vacant idx)
    : (Pc.exclusivelyOwned dbg idx next).Fits s := by
  cases dbg with
  | false => exact fits
  | true => exact ⟨holds, holds, fits⟩

omit [DecidableEq T] [Fintype T] in
theorem Pc.fits_pushFreeIndex {idx : Nat} {after : AfterPush K E}
    : (Pc.pushFreeIndex dbg idx after : Pc K V E).Fits s :=
  Pc.fits_exclusivelyOwned (.pushLoad idx after) trivial after.vacant_role

theorem Sys.Inv.fits_popLoop (inv : s.Inv free)
    : (Pc.popLoop s.freeHead s.updates : Pc K V E).Fits s := by
  rw [Pc.popLoop]
  split
  · trivial
  · next some => exact inv.observed some

/-- A move of a program counter gives locals that fit, by cases on the move. -/
theorem Pc.Goes.fits {pc pc' : Pc K V E} (goes : pc.Goes dbg s pc') (inv : s.Inv free)
    (fits : pc.Fits s)
    : pc'.Fits s := by
  cases goes with
  | arrived idx next present => exact fits
  | unreferenced idx next zero => exact fits.2
  | unoccupied idx next even => exact fits.2
  | popLoad => exact inv.fits_popLoop
  | popNext old seen => exact ⟨fits, fun _ => rfl⟩
  | popAgain old next seen => exact inv.fits_popLoop
  | insertVersion idx => exact rfl
  | closureOk idx version value =>
      exact Pc.fits_exclusivelyOwned (.insertWrite idx version value) fits rfl
  | ensurePresent chunk after present => exact AfterEnsure.fits_resume fits
  | ensureAbsent chunk after absent => exact fits
  | allocNull chunk after => exact fits
  | installedElsewhere chunk new after present => exact fits
  | removeCurrent key same => exact rfl
  | removeAgain key current same => exact rfl
  | acquireLoad key getter positive bounded => exact ⟨positive, bounded⟩
  | acquireAgain key getter refcount positive bounded => exact ⟨positive, bounded⟩
  | _ => trivial

omit [DecidableEq T] [Fintype T] in
/-- A move that answers gives locals that fit, by cases on the move. -/
theorem Pc.Answers.fits {pc pc' : Pc K V E} {res : Res K V E}
    (answers : pc.Answers dbg s res pc')
    : pc'.Fits s := by
  cases answers with
  | closureErr idx version err => exact Pc.fits_pushFreeIndex
  | _ => trivial

omit [DecidableEq T] [Fintype T] in
/-- A call starts with locals that fit. -/
theorem Op.Starts.fits {op : Op K} {pc : Pc K V E} (starts : op.Starts s pc) : pc.Fits s := by
  cases starts with
  | cloneGuard id guard member named => exact member
  | _ => trivial

omit [DecidableEq T] [Fintype T] in
/-- After a decrement the locals fit either way. -/
theorem Pc.Decrements.fits {pc needsDrop otherwise : Pc K V E} {idx : Nat}
    (decrements : pc.Decrements idx needsDrop otherwise)
    : needsDrop.Fits s ∧ otherwise.Fits s := by
  cases decrements with
  | acquire key getter => exact ⟨rfl, getter.fits_missed⟩
  | _ => exact ⟨rfl, trivial⟩

end

end AtomicSlotMap
