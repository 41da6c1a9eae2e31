import AtomicSlotMap.Correctness.ChunkWaits
import AtomicSlotMap.History.Sequential

/-! On a single thread every call comes to an end, if the allocator supplies the chunks: what an
exchange expects is what it finds, and no chunk that a call waits for is still to be installed.
-/

namespace AtomicSlotMap

variable {T K V E : Type} [Key K]

/-- An upper bound for the accesses of an iterator that goes on at an index of a vector of this
length: each further slot takes at most 20.
-/
def Getter.rank (len : Nat) : Getter → Nat
  | .get _ => 0
  | .next currentIdx => (len - currentIdx) * 20 + 1

def AfterPush.rank (len : Nat) : AfterPush K E → Nat
  | .removed _ => 1
  | .missed getter => getter.rank len
  | _ => 0

def AfterEnsure.rank : AfterEnsure → Nat
  | .pushed _ => 0
  | .reserving chunk maxChunk => (maxChunk - chunk) * 5

/-- An upper bound for the accesses that a call makes until its next pause, if no chunk is missing
and no exchange fails.
-/
def Pc.rank (len : Nat) : Pc K V E → Nat
  | .idle | .iterating _ | .ret _ | .unwinding | .closure _ _ => 0
  | .waitForChunk _ next | .assertRefCount _ next | .assertVersion _ next => next.rank len + 1
  | .popLoad => 8
  | .popNext _ _ => 6
  | .popCas _ _ _ | .pushZeroed => 5
  | .insertVersion _ => 1
  | .insertWrite _ _ _ => 4
  | .insertRefCount _ _ _ => 3
  | .insertPublish _ _ _ => 2
  | .insertCount _ _ => 1
  | .ensureLoad _ after => after.rank + 4
  | .ensureAlloc _ after => after.rank + 3
  | .ensureCas _ _ after => after.rank + 2
  | .ensureDealloc _ after => after.rank + 1
  | .pushLoad _ after => after.rank len + 3
  | .pushStore _ _ after => after.rank len + 2
  | .pushCas _ _ after => after.rank len + 1
  | .dropValue _ after => after.rank len + 7
  | .removeLen _ => 13
  | .removeVersion _ => 11
  | .removeCas _ _ => 10
  | .removeDec _ => 9
  | .removeCount _ => 1
  | .getLen _ getter => getter.rank len + 13
  | .acquireLoad _ getter => getter.rank len + 11
  | .acquireCas _ getter _ => getter.rank len + 10
  | .acquireVersion _ getter => getter.rank len + 9
  | .acquireDec _ getter => getter.rank len + 8
  | .containsLen _ => 3
  | .containsVersion _ => 1
  | .nextLen currentIdx => (len - currentIdx) * 20 + 1
  | .nextGet idx => (len - (idx + 1)) * 20 + 17
  | .nextVersion idx => (len - (idx + 1)) * 20 + 15
  | .unguardDec _ => 9
  | .cloneInc _ | .lenLoad | .isEmptyLoad => 1
  | .capacityLoad chunk _ => CHUNKS - chunk + 1
  | .reserveLen _ => CHUNKS * 5 + 7
  | .reserveSlots _ => CHUNKS * 5 + 6
  | .vecReserve _ => CHUNKS * 5 + 5

section

variable {dbg : Bool} {len : Nat}

omit [Key K] in
/-- A call that is not at a pause has an access to make. -/
theorem Pc.rank_pos {pc : Pc K V E} (running : pc.paused = false) : 0 < pc.rank len := by
  cases pc with
  | idle | iterating | closure | ret | unwinding => cases running
  | _ => exact Nat.succ_pos _

omit [Key K] in
theorem Pc.rank_of_paused {pc : Pc K V E} (paused : pc.paused = true) : pc.rank len = 0 := by
  cases pc with
  | idle | iterating | closure | ret | unwinding => rfl
  | _ => cases paused

omit [Key K] in
theorem Pc.rank_exclusivelyOwned (idx : Nat) (next : Pc K V E)
    : (Pc.exclusivelyOwned dbg idx next).rank len ≤ next.rank len + 2 := by
  cases dbg
  · exact Nat.le_add_right _ 2
  · exact Nat.le_refl _

omit [Key K] in
theorem Pc.rank_pushFreeIndex (idx : Nat) (after : AfterPush K E)
    : (Pc.pushFreeIndex dbg idx after : Pc K V E).rank len ≤ after.rank len + 6 :=
  Nat.succ_le_succ (Pc.rank_exclusivelyOwned idx (.pushLoad idx after))

omit [Key K] in
theorem Pc.rank_popLoop (head updates : Nat)
    : (Pc.popLoop head updates : Pc K V E).rank len ≤ 7 := by
  rw [Pc.popLoop]
  split
  · exact Nat.le_add_right 5 2
  · exact Nat.le_refl _

omit [Key K] in
@[simp] theorem Getter.rank_missed (getter : Getter)
    : (getter.missed : Pc K V E).rank len = getter.rank len := by
  cases getter <;> rfl

omit [Key K] in
@[simp] theorem AfterPush.rank_resume (after : AfterPush K E)
    : (after.resume : Pc K V E).rank len = after.rank len := by
  cases after with
  | missed getter => exact getter.rank_missed
  | _ => rfl

omit [Key K] in
theorem AfterEnsure.rank_resume (after : AfterEnsure)
    : (after.resume : Pc K V E).rank len ≤ after.rank := by
  cases after with
  | pushed idx => exact Nat.le_refl _
  | reserving chunk maxChunk =>
      simp only [AfterEnsure.resume, AfterEnsure.rank]
      split
      · simp only [Pc.rank, AfterEnsure.rank]
        omega
      · exact Nat.zero_le _

end

namespace Sys

variable [DecidableEq T] [Fintype T] {dbg : Bool} {s s' : Sys T K V E} {t : T}

/-- An access that no exchange and no missing chunk repeats brings a call nearer to its next pause,
by cases on the program counter.
-/
theorem rank_lt_of_go (running : (s.pc t).paused = false) (steady : (s.pc t).Steady s)
    (present : ∀ idx next, s.pc t = .waitForChunk idx next → (s.chunks (chunkOf idx)).isSome)
    (found : step dbg s t .go = some s')
    : (s'.pc t).rank s.len < (s.pc t).rank s.len := by
  have going {bound : Nat} (staged : Sys T K V E) {pc : Pc K V E}
      (reached : s' = staged.goto t pc) (less : pc.rank s.len < bound) :
      (s'.pc t).rank s.len < bound :=
    pc_of_goto reached ▸ less
  cases about : s.pc t with
  | idle | iterating | closure | ret | unwinding =>
      rw [about] at running
      cases running
  | waitForChunk idx next =>
      rcases step_wait about found with ⟨_, reached⟩ | ⟨missing, _⟩
      · exact going _ reached (Nat.lt_succ_self _)
      · exact absurd (present idx next about) missing
  | popCas old next seen =>
      rw [about] at steady
      simp only [step, about, steady.1, BEq.rfl] at found
      refine going _ (Option.some.inj found).symm ?_
      exact Nat.lt_succ_of_le (Pc.rank_exclusivelyOwned _ (.waitForChunk _ (.insertVersion _)))
  | pushCas idx old after =>
      rw [about] at steady
      simp only [step, about, show old = s.freeHead from steady, BEq.rfl] at found
      refine going _ (Option.some.inj found).symm ?_
      rw [AfterPush.rank_resume]
      exact Nat.lt_succ_self _
  | removeCas key current =>
      rw [about] at steady
      have same : (s.slots (KeyData.idx key)).version = current := steady
      simp only [step, about, removeExchange, if_pos same] at found
      exact going _ (Choice.eq_of_onGo found) (Nat.lt_succ_self _)
  | acquireCas key getter refcount =>
      rw [about] at steady
      have same : (s.slots (KeyData.idx key)).refCount = refcount := steady
      simp only [step, about, same, BEq.rfl] at found
      exact going _ (Option.some.inj found).symm (Nat.lt_succ_self _)
  | assertRefCount idx next | assertVersion idx next =>
      simp only [step, about] at found
      have reached := Choice.eq_of_onGo found
      split at reached
      · exact going _ reached (Nat.lt_succ_self _)
      · exact pc_of_unwind reached ▸ Nat.succ_pos _
  | popLoad =>
      simp only [step, about] at found
      exact going _ (Choice.eq_of_onGo found) (Nat.lt_succ_of_le (Pc.rank_popLoop _ _))
  | popNext | insertVersion | pushZeroed | insertWrite | insertRefCount | insertPublish
  | insertCount | pushLoad | pushStore | removeCount | containsVersion | lenLoad | isEmptyLoad
  | reserveSlots =>
      simp only [step, about] at found
      exact going _ (Choice.eq_of_onGo found) (Nat.lt_succ_self _)
  | ensureLoad chunk after =>
      simp only [step, about] at found
      refine going _ (Choice.eq_of_onGo found) ?_
      split
      · exact Nat.lt_of_le_of_lt after.rank_resume (Nat.lt_add_of_pos_right (by omega))
      · exact Nat.lt_succ_self _
  | ensureAlloc chunk after =>
      simp only [step, about] at found
      exact going _ (Option.some.inj found).symm (Nat.lt_succ_self _)
  | ensureCas chunk new after =>
      simp only [step, about, installChunk] at found
      have reached := Choice.eq_of_onGo found
      split at reached
      · refine going _ reached ?_
        exact Nat.lt_of_le_of_lt after.rank_resume (Nat.lt_add_of_pos_right (by omega))
      · exact going _ reached (Nat.lt_succ_self _)
  | ensureDealloc new after =>
      simp only [step, about] at found
      exact going _ (Choice.eq_of_onGo found) (Nat.lt_succ_of_le after.rank_resume)
  | dropValue idx after =>
      simp only [step, about] at found
      refine going _ (Option.some.inj found).symm ?_
      exact Nat.lt_succ_of_le (Pc.rank_pushFreeIndex idx after)
  | removeLen key | containsLen key =>
      simp only [step, about] at found
      have reached := Choice.eq_of_onGo found
      split at reached
      · exact going _ reached (Nat.succ_pos _)
      · exact going _ reached (Nat.lt_succ_self _)
  | removeVersion key =>
      simp only [step, about, removeLoop] at found
      have reached := Choice.eq_of_onGo found
      split at reached
      · exact going _ reached (Nat.succ_pos _)
      · exact going _ reached (Nat.lt_succ_self _)
  | removeDec key =>
      simp only [step, about, decRefCount] at found
      have reached := Choice.eq_of_onGo found
      split at reached
      · exact going _ reached (Nat.lt_succ_self _)
      · exact going _ reached (Nat.le_add_left 2 7)
  | acquireDec key getter =>
      simp only [step, about, decRefCount] at found
      have reached := Choice.eq_of_onGo found
      split at reached
      · exact going _ reached (Nat.lt_succ_self _)
      · refine going _ reached ?_
        rw [Getter.rank_missed]
        exact Nat.lt_add_of_pos_right (by omega)
  | unguardDec guard =>
      simp only [step, about, decRefCount] at found
      have reached := Choice.eq_of_onGo found
      split at reached
      · exact going _ reached (Nat.lt_succ_self _)
      · exact going _ reached (Nat.succ_pos _)
  | getLen key getter =>
      simp only [step, about] at found
      have reached := Choice.eq_of_onGo found
      split at reached
      · refine going _ reached ?_
        rw [Getter.rank_missed]
        exact Nat.lt_add_of_pos_right (by omega)
      · exact going _ reached (Nat.lt_succ_self _)
  | acquireLoad key getter =>
      simp only [step, about, acquireLoop] at found
      have reached := Choice.eq_of_onGo found
      split at reached
      · exact pc_of_unwind reached ▸ Nat.succ_pos _
      · split at reached
        · refine going _ reached ?_
          rw [Getter.rank_missed]
          exact Nat.lt_add_of_pos_right (by omega)
        · exact going _ reached (Nat.lt_succ_self _)
  | acquireVersion key getter =>
      simp only [step, about, acquireCheck] at found
      have reached := Choice.eq_of_onGo found
      split at reached
      · exact going _ reached (Nat.succ_pos _)
      · exact going _ reached (Nat.lt_succ_self _)
  | nextLen currentIdx =>
      simp only [step, about] at found
      have reached := Choice.eq_of_onGo found
      split at reached
      · exact going _ reached (Nat.succ_pos _)
      · refine going _ reached ?_
        simp only [Pc.rank]
        omega
  | nextGet idx =>
      simp only [step, about] at found
      refine going _ (Choice.eq_of_onGo found) ?_
      split <;> simp only [Pc.rank] <;> omega
  | nextVersion idx =>
      simp only [step, about] at found
      refine going _ (Choice.eq_of_onGo found) ?_
      split <;> simp only [Pc.rank, Getter.rank] <;> omega
  | cloneInc guard =>
      simp only [step, about, cloneGuard] at found
      have reached := Choice.eq_of_onGo found
      split at reached
      · exact going _ reached (Nat.succ_pos _)
      · exact pc_of_unwind reached ▸ Nat.succ_pos _
  | capacityLoad chunk total =>
      simp only [step, about] at found
      have reached := Choice.eq_of_onGo found
      split at reached
      · next more =>
        refine going _ reached ?_
        simp only [Pc.rank]
        omega
      · exact going _ reached (Nat.succ_pos _)
  | reserveLen additional =>
      simp only [step, about] at found
      have reached := Choice.eq_of_onGo found
      split at reached
      · exact pc_of_unwind reached ▸ Nat.succ_pos _
      · exact going _ reached (Nat.lt_succ_self _)
  | vecReserve additional =>
      simp only [step, about, Sys.vecReserve] at found
      have reached := Choice.eq_of_onGo found
      split at reached
      · exact pc_of_unwind reached ▸ Nat.succ_pos _
      · next targetCap _ =>
        split at reached
        · exact going _ reached (Nat.succ_pos _)
        · split at reached
          · exact pc_of_unwind reached ▸ Nat.succ_pos _
          · next small =>
            refine going _ reached ?_
            have few := chunkOf_lt (Nat.lt_of_not_le small)
            simp only [Pc.rank, AfterEnsure.rank]
            omega

-----------------------------------------------------------------------------------------
-- Calls come to their next pause
-----------------------------------------------------------------------------------------

/-- Nothing hinders an activity: what it has loaded is up to date, all others are at rest or run a
closure, and no allocation has failed.
-/
structure Unhindered (dbg : Bool) (s : Sys T K V E) (t : T) : Prop where
  steady : (s.pc t).Steady s
  only : s.Only t
  granted : Relation.ReflTransGen (GrantedStep dbg) (.withKey T K V E) s

/-- An access within the call leaves it unhindered. -/
theorem Unhindered.turn (unhindered : Unhindered dbg s t) (turn : GoTurn dbg t s s')
    : Unhindered dbg s' t where
  steady := (step_moves turn.2).steady unhindered.steady
  only := by
    intro other apart
    rw [(step_moves turn.2).others other apart]
    exact unhindered.only other apart
  granted := unhindered.granted.tail ⟨t, .go, grants_of_supplies s t rfl, turn.2⟩

omit [Key K] [DecidableEq T] [Fintype T] in
/-- Who is at rest or runs a closure installs no chunk. -/
theorem Pc.Pushing.busy {pc : Pc K V E} {idx : Nat} (pushing : pc.Pushing idx)
    : pc.waits = false := by
  cases pc with
  | idle | iterating | closure => exact pushing.elim
  | _ => rfl

/-- The chunk that a single thread waits for is there: nobody is on the way to install it. -/
theorem Unhindered.present (unhindered : Unhindered dbg s t) {idx : Nat} {next : Pc K V E}
    (about : s.pc t = .waitForChunk idx next)
    : (s.chunks (chunkOf idx)).isSome := by
  by_contra missing
  obtain ⟨claimed, _⟩ := Claimed.withKey.of_granted .withKey unhindered.granted
  obtain ⟨_, _, u, pushing⟩ := (reaching_of_run unhindered.granted).waits claimed about missing
  by_cases self : u = t
  · rw [self, about] at pushing
    exact pushing
  · have waits := unhindered.only u self
    rw [Pc.Pushing.busy pushing] at waits
    cases waits

/-- An access brings an unhindered call nearer to its next pause; only `push_zeroed` changes the
length, and the bound for what follows does not depend on it.
-/
theorem Unhindered.lowers (unhindered : Unhindered dbg s t) (turn : GoTurn dbg t s s')
    : (s'.pc t).rank s'.len < (s.pc t).rank s.len := by
  have less := rank_lt_of_go turn.1 unhindered.steady (fun _ _ => unhindered.present) turn.2
  rcases (step_moves turn.2).pushes with ⟨same, _⟩ | ⟨_, rfl⟩
  · rwa [same]
  · rw [Sys.pushZeroed, pc_goto_self] at less ⊢
    exact less

/-- An unhindered call with this bound for its accesses until the next pause. -/
def Nearing (dbg : Bool) (t : T) (rank : Nat) (s : Sys T K V E) : Prop :=
  Unhindered dbg s t ∧ (s.pc t).rank s.len = rank

/-- An unhindered call comes to its next pause, by induction on the bound. -/
theorem Unhindered.pauses (unhindered : Unhindered dbg s t)
    : Library.Eventually (GoTurn dbg t) (fun s' => (s'.pc t).paused = true) s := by
  have start : Nearing dbg t _ s := ⟨unhindered, rfl⟩
  refine Library.Eventually.of_rank ?_ ?_ start
  · rintro s ⟨_, zero⟩
    by_contra running
    exact Nat.ne_of_gt (Pc.rank_pos (Bool.eq_false_iff.mpr running)) zero
  · rintro rank s ⟨unhindered, more⟩
    have running : (s.pc t).paused = false := by
      rw [Bool.eq_false_iff]
      intro paused
      rw [Pc.rank_of_paused paused] at more
      cases more
    obtain ⟨next, found⟩ := exists_go dbg running
    refine ⟨⟨next, running, found⟩, fun s' turn => ?_⟩
    have less := unhindered.lowers turn
    rw [more] at less
    exact ⟨_, Nat.le_of_lt_succ less, unhindered.turn turn, rfl⟩

end Sys

end AtomicSlotMap
