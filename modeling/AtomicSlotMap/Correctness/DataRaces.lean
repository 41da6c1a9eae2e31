import AtomicSlotMap.Implementation.Guards
import AtomicSlotMap.Implementation.Orderings
import AtomicSlotMap.Correctness.Buffers
import AtomicSlotMap.Correctness.ChunkWaits
import AtomicSlotMap.Correctness.MemorySafety

/-! The memory orderings of the source are strong enough. In every interleaving each access to the
memory of a slot happens after the zeroing of its buffer, and accesses to a cell of which one writes
or drops the value are ordered by happens-before.
-/

namespace AtomicSlotMap

open Library

variable {T K V E : Type} [Key K]

/-- The clocks of the activities and words. -/
abbrev MemoryClocks (T : Type) := Clocks T Word MemoryAccess

/-- Accesses to the content of a cell. -/
def MemoryAccess.cell (idx : Nat) : MemoryAccess → Prop
  | .read _ place | .write _ place => place = idx
  | _ => False

/-- Accesses that write a value to a cell or drop it. -/
def MemoryAccess.writes (idx : Nat) : MemoryAccess → Prop
  | .write _ place => place = idx
  | _ => False

/-- The slot whose reference count an activity stores next. -/
def Pc.arms : Pc K V E → Option Nat
  | .insertRefCount idx _ _ => some idx
  | _ => none

/-- The slot that an activity makes a guard on next, unless it finds another version. -/
def Pc.shares : Pc K V E → Option Nat
  | .waitForChunk _ next | .assertRefCount _ next | .assertVersion _ next => next.shares
  | .acquireVersion key _ => some (KeyData.idx key)
  | .cloneInc guard => some (KeyData.idx guard.key)
  | _ => none

@[simp] theorem Pc.shares_exclusivelyOwned (dbg : Bool) (idx : Nat) (next : Pc K V E)
    : (Pc.exclusivelyOwned dbg idx next).shares = next.shares := by
  cases dbg <;> rfl

@[simp] theorem Pc.shares_pushFreeIndex (dbg : Bool) (idx : Nat) (after : AfterPush K E)
    : (Pc.pushFreeIndex dbg idx after : Pc K V E).shares = none := by
  cases dbg <;> rfl

@[simp] theorem Pc.shares_popLoop (head updates : Nat)
    : (Pc.popLoop head updates : Pc K V E).shares = none := by
  rw [Pc.popLoop]
  split <;> rfl

@[simp] theorem Getter.shares_missed (getter : Getter)
    : (getter.missed : Pc K V E).shares = none := by
  cases getter <;> rfl

@[simp] theorem AfterPush.shares_resume (after : AfterPush K E)
    : (after.resume : Pc K V E).shares = none := by
  cases after with
  | missed getter => exact getter.shares_missed
  | _ => rfl

@[simp] theorem AfterEnsure.shares_resume (after : AfterEnsure)
    : (after.resume : Pc K V E).shares = none := by
  cases after with
  | pushed idx => rfl
  | reserving chunk maxChunk =>
      rw [AfterEnsure.resume]
      split <;> rfl

@[simp] theorem Res.shares_rest (res : Res K V E) : res.rest.shares = none := by
  cases res <;> rfl

theorem MemoryAccess.cell_of_writes {idx : Nat} {access : MemoryAccess}
    (writes : access.writes idx)
    : access.cell idx := by
  cases access with
  | write buffer place => exact writes
  | _ => exact writes.elim

namespace Sys

variable {s s' : Sys T K V E} {t : T} {choice : Choice K V E} {idx : Nat}

-----------------------------------------------------------------------------------------
-- Effects
-----------------------------------------------------------------------------------------

omit [Key K] in
theorem mem_decEffects {effect : MemoryEffect Word MemoryAccess}
    (member : effect ∈ s.decEffects idx)
    : effect = s.touch idx ∨ effect = .update (.refCount idx) .release ∨ effect = .fence := by
  rw [decEffects] at member
  split at member
  · simpa using member
  · exact Or.imp_right Or.inl (by simpa using member)

/-- What a step stores to, by cases on the program counter. -/
theorem stored_of_effects {word : Word} {order : MemoryOrder}
    (stores : .store word order ∈ s.memoryEffects t choice)
    : (∃ place, word = .version place ∨ word = .nextFree place)
      ∨ word = .lent s.guardIds
      ∨ ∃ place, word = .refCount place ∧ (s.pc t).arms = some place := by
  cases about : s.pc t with
  | idle | iterating =>
      simp only [memoryEffects, about] at stores
      cases choice with
      | call op =>
          cases op with
          | derefGuard id =>
              simp only [callEffects] at stores
              split at stores <;> simp at stores
          | _ => simp [callEffects] at stores
      | _ => simp at stores
  | insertRefCount place =>
      simp only [memoryEffects, about, touch, List.mem_cons, List.not_mem_nil, or_false, reduceCtorEq,
        false_or] at stores
      cases stores
      exact Or.inr (Or.inr ⟨place, rfl, rfl⟩)
  | insertPublish place | pushStore place =>
      simp only [memoryEffects, about, touch, List.mem_cons, List.not_mem_nil, or_false, reduceCtorEq,
        false_or] at stores
      cases stores
      first | exact Or.inl ⟨place, Or.inl rfl⟩ | exact Or.inl ⟨place, Or.inr rfl⟩
  | acquireVersion | cloneInc =>
      simp only [memoryEffects, about] at stores
      split at stores
      · simp only [touch, List.mem_cons, List.not_mem_nil, or_false, reduceCtorEq, false_or]
          at stores
        cases stores
        exact Or.inr (Or.inl rfl)
      · simp [touch] at stores
  | removeDec | acquireDec | unguardDec =>
      simp only [memoryEffects, about] at stores
      rcases mem_decEffects stores with same | same | same <;> cases same
  | ensureAlloc | popCas | pushCas | acquireCas =>
      cases choice <;> simp [memoryEffects, about, touch] at stores
  | _ => simp [memoryEffects, about, touch] at stores

/-- What memory a step accesses, by cases on the program counter. -/
theorem accessed_of_effects {access : MemoryAccess}
    (accesses : .access access ∈ s.memoryEffects t choice)
    : (access = .zeroed s.buffers ∧ choice = .go ∧ ∃ chunk after, s.pc t = .ensureAlloc chunk after)
      ∨ (∃ place,
          (s.pc t).slotRef = some place
          ∧ (access = .word (s.bufferOf place) place
            ∨ access = .write (s.bufferOf place) place ∧ (s.pc t).accesses = some place))
      ∨ ∃ id guard,
          choice = .call (.derefGuard id)
          ∧ s.guards.find? (·.id == id) = some guard
          ∧ access = .read (s.bufferOf (KeyData.idx guard.key)) (KeyData.idx guard.key) := by
  cases about : s.pc t with
  | idle | iterating =>
      simp only [memoryEffects, about] at accesses
      cases choice with
      | call op =>
          cases op with
          | derefGuard id =>
              simp only [callEffects] at accesses
              split at accesses
              · next guard found =>
                simp only [List.mem_cons, List.not_mem_nil, or_false, reduceCtorEq, false_or]
                  at accesses
                cases accesses
                exact Or.inr (Or.inr ⟨id, guard, rfl, found, rfl⟩)
              · simp at accesses
          | _ => simp [callEffects] at accesses
      | _ => simp at accesses
  | removeDec | acquireDec | unguardDec =>
      simp only [memoryEffects, about] at accesses
      rcases mem_decEffects accesses with same | same | same <;> cases same
      exact Or.inr (Or.inl ⟨_, rfl, Or.inl rfl⟩)
  | insertWrite | dropValue =>
      simp only [memoryEffects, about, List.mem_singleton, MemoryEffect.access.injEq] at accesses
      exact Or.inr (Or.inl ⟨_, rfl, Or.inr ⟨accesses, rfl⟩⟩)
  | ensureAlloc chunk after =>
      cases choice with
      | go =>
          simp only [memoryEffects, about, List.mem_singleton, MemoryEffect.access.injEq] at accesses
          exact Or.inl ⟨accesses, rfl, chunk, after, rfl⟩
      | _ => simp [memoryEffects, about] at accesses
  | popCas | pushCas => cases choice <;> simp [memoryEffects, about] at accesses
  | acquireCas =>
      refine Or.inr (Or.inl ⟨_, rfl, Or.inl ?_⟩)
      cases choice <;> simpa [memoryEffects, about, touch] using accesses
  | acquireVersion | cloneInc =>
      refine Or.inr (Or.inl ⟨_, rfl, Or.inl ?_⟩)
      simp only [memoryEffects, about] at accesses
      split at accesses <;> simpa [touch] using accesses
  | assertRefCount | assertVersion | popNext | insertVersion | insertRefCount | insertPublish
  | pushStore | removeVersion | removeCas | acquireLoad | containsVersion | nextVersion =>
      refine Or.inr (Or.inl ⟨_, rfl, Or.inl ?_⟩)
      simpa [memoryEffects, about, touch] using accesses
  | _ => simp [memoryEffects, about] at accesses

variable [DecidableEq T] {c : MemoryClocks T}

/-- A step makes things known and forgets nothing; only who stores to a word starts its releases
anew.
-/
structure Learns (s : Sys T K V E) (t : T) (c c' : MemoryClocks T) : Prop where
  knows : ∀ other, c.knows other ⊆ c'.knows other
  freeHead : c.released .freeHead ⊆ c'.released .freeHead
  chunk : ∀ chunk, c.released (.chunk chunk) ⊆ c'.released (.chunk chunk)
  returned : ∀ id, c.released (.returned id) ⊆ c'.released (.returned id)
  lent : ∀ id ≠ s.guardIds, c.released (.lent id) ⊆ c'.released (.lent id)
  refCount
    : ∀ idx, (s.pc t).arms ≠ some idx →
        c.released (.refCount idx) ⊆ c'.released (.refCount idx)

theorem learns : s.Learns t c (c.run t (s.memoryEffects t choice)) where
  knows other := by
    by_cases self : other = t
    · subst self
      exact Clocks.knows_subset_run
    · exact subset_of_eq (Clocks.knows_run_of_ne self).symm
  freeHead := Clocks.released_subset_run fun order stores => by
    rcases stored_of_effects stores with ⟨_, same | same⟩ | same | ⟨_, same, _⟩ <;> cases same
  chunk chunk := Clocks.released_subset_run fun order stores => by
    rcases stored_of_effects stores with ⟨_, same | same⟩ | same | ⟨_, same, _⟩ <;> cases same
  returned id := Clocks.released_subset_run fun order stores => by
    rcases stored_of_effects stores with ⟨_, same | same⟩ | same | ⟨_, same, _⟩ <;> cases same
  lent id old := Clocks.released_subset_run fun order stores => by
    rcases stored_of_effects stores with ⟨_, same | same⟩ | same | ⟨_, same, _⟩ <;> cases same
    exact old rfl
  refCount idx unarmed := Clocks.released_subset_run fun order stores => by
    rcases stored_of_effects stores with ⟨_, same | same⟩ | same | ⟨_, same, arms⟩ <;> cases same
    exact unarmed arms

variable [Fintype T] {dbg : Bool}

omit [Fintype T] in
/-- A guard that is new in a step is released by who makes it. -/
theorem Hands.new (hands : s.Hands t s') (choice : Choice K V E) {guard : Guard K V}
    (member : guard ∈ s'.guards) (new : guard ∉ s.guards)
    : guard.id < s'.guardIds
      ∧ (s.pc t).slotRef = some (KeyData.idx guard.key)
      ∧ ((∃ getter, s.pc t = .acquireVersion guard.key getter)
        ∨ ∃ source, s.pc t = .cloneInc source ∧ source.key = guard.key)
      ∧ (c.run t (s.memoryEffects t choice)).knows t
        ⊆ (c.run t (s.memoryEffects t choice)).released (.lent guard.id) := by
  cases hands with
  | kept guards =>
      rw [guards] at member
      exact absurd member new
  | dropping _ _ _ _ guards | forgot _ _ _ _ guards =>
      rw [guards] at member
      exact absurd (List.mem_of_mem_eraseP member) new
  | made made guards _ guardIds id source =>
      rw [guards] at member
      obtain rfl := (List.mem_cons.mp member).resolve_right new
      refine ⟨by omega, ?_⟩
      rw [id]
      rcases source with ⟨⟨getter, about, _⟩, current⟩ | ⟨cloned, about, same, _, room⟩
      · refine ⟨congrArg Pc.slotRef about, Or.inl ⟨getter, about⟩, ?_⟩
        simp only [memoryEffects, about, if_pos current, Clocks.run_cons, Clocks.run_nil]
        exact Clocks.knows_subset_store rfl
      · refine ⟨?_, Or.inr ⟨cloned, about, same⟩, ?_⟩
        · rw [about, ← same]
          rfl
        · simp only [memoryEffects, about, if_pos room, Clocks.run_cons, Clocks.run_nil]
          exact Clocks.knows_subset_store rfl

-----------------------------------------------------------------------------------------
-- Zeroed buffers
-----------------------------------------------------------------------------------------

/-- The buffer of a slot is there, and its zeroing is among these accesses. -/
def KnowsZeroed (s : Sys T K V E) (c : MemoryClocks T) (seen : Finset Nat) (idx : Nat) : Prop :=
  ∃ buffer, s.bufferOf idx = some buffer ∧ c.Covers seen (· = .zeroed buffer)

/-- Who refers to a slot knows that its buffer has been zeroed, as does who is given a guard or
loads the pointer of the buffer.
-/
structure Zeroed (s : Sys T K V E) (c : MemoryClocks T) : Prop where
  anchored : ∀ t, (s.pc t).Anchored (fun _ => True) (s.KnowsZeroed c (c.knows t))
  ids : ∀ guard ∈ s.guards, guard.id < s.guardIds
  guards
    : ∀ guard ∈ s.guards, s.KnowsZeroed c (c.released (.lent guard.id)) (KeyData.idx guard.key)
  installed
    : ∀ chunk buffer, s.chunks chunk = some buffer →
        c.Covers (c.released (.chunk chunk)) (· = .zeroed buffer)
  allocated
    : ∀ t chunk buffer, (s.pc t).allocation = some (chunk, buffer) →
        c.Covers (c.knows t) (· = .zeroed buffer)
  named
    : ∀ (i : Nat) (access : MemoryAccess) (past : Finset Nat) (buffer : Nat),
        c.log[i]? = some (access, past) → access.buffer = some buffer → buffer < s.buffers

omit [DecidableEq T] [Fintype T] in
theorem Zeroed.withKey : (Sys.withKey T K V E).Zeroed (.start : MemoryClocks T) where
  anchored _ := nofun
  ids := nofun
  guards := nofun
  installed := nofun
  allocated := nofun
  named := nofun

omit [Key K] [Fintype T] in
theorem Stores.buffers_le (stores : s.Stores t s') : s.buffers ≤ s'.buffers := by
  cases stores with
  | kept _ buffers => exact Nat.le_of_eq buffers.symm
  | allocated chunk after about reached =>
      rw [reached]
      exact Nat.le_succ _
  | installed chunk new after about absent reached =>
      rw [reached]
      exact Nat.le_refl _

omit [Fintype T] in
/-- A zeroing that is known stays known. -/
theorem covers_zeroed {seen seen' : Finset Nat} {buffer : Nat}
    (covers : c.Covers seen (· = .zeroed buffer)) (old : buffer < s.buffers) (more : seen ⊆ seen')
    : (c.run t (s.memoryEffects t choice)).Covers seen' (· = .zeroed buffer) := by
  refine (covers.mono more).run ?_
  rintro access member rfl
  rcases accessed_of_effects member with ⟨same, _⟩ | ⟨_, _, same | ⟨same, _⟩⟩ | ⟨_, _, _, _, same⟩
  · cases same
    exact Nat.lt_irrefl _ old
  all_goals cases same

omit [Fintype T] in
theorem KnowsZeroed.step (buffered : s.Buffered) {seen seen' : Finset Nat}
    (knows : s.KnowsZeroed c seen idx) (more : seen ⊆ seen')
    : s.KnowsZeroed (c.run t (s.memoryEffects t choice)) seen' idx := by
  obtain ⟨buffer, found, covers⟩ := knows
  exact ⟨buffer, found, covers_zeroed covers (buffered.inv.cells _ _ found).1 more⟩

omit [Fintype T] in
/-- Chunks stay where they are. -/
theorem KnowsZeroed.moves {seen : Finset Nat} (knows : s.KnowsZeroed c seen idx)
    (moves : s.Moves dbg t s')
    : s'.KnowsZeroed c seen idx := by
  obtain ⟨buffer, found, covers⟩ := knows
  exact ⟨buffer, moves.chunks_of_some found, covers⟩

/-- An activity only has a buffer that it has just allocated or had before, by cases on the program
counter.
-/
theorem allocation_of_step (found : step dbg s t choice = some s') (asks : (s.pc t).Asks)
    (small : s.len < 2 ^ 32) {chunk buffer : Nat}
    (holds : (s'.pc t).allocation = some (chunk, buffer))
    : ((∃ chunk after, s.pc t = .ensureAlloc chunk after) ∧ choice = .go ∧ buffer = s.buffers)
      ∨ (s.pc t).allocation = some (chunk, buffer) := by
  have resumed {staged : Sys T K V E} {after : AfterEnsure} (bounded : after.Bounded)
      (holds : ((staged.goto t after.resume).pc t).allocation = some (chunk, buffer)) : False := by
    rw [pc_goto_self, bounded.resume.1] at holds
    cases holds
  cases about : s.pc t with
  | ensureAlloc place after =>
      simp only [step, about] at found
      cases choice with
      | go =>
          cases found
          rw [pc_goto_self] at holds
          cases holds
          exact Or.inl ⟨⟨_, _, rfl⟩, rfl, rfl⟩
      | allocNull =>
          cases found
          rw [pc_goto_self] at holds
          cases holds
      | layoutOverflow =>
          cases found
          rw [pc_unwind_self] at holds
          cases holds
      | _ => cases found
  | ensureCas place new after =>
      rw [about] at asks
      simp only [step, about, installChunk] at found
      have reached := Choice.eq_of_onGo found
      split at reached
      · subst reached
        exact (resumed asks.2 holds).elim
      · subst reached
        rw [pc_goto_self] at holds
        exact Or.inr holds
  | ensureDealloc new after =>
      rw [about] at asks
      simp only [step, about] at found
      cases Choice.eq_of_onGo found
      exact (resumed asks holds).elim
  | _ =>
      have outside : (s.pc t).ensuring = false := by rw [about]; rfl
      rw [((step_moves found).leads.aside outside asks small).1] at holds
      cases holds

/-- Every step keeps what is known of zeroed buffers. -/
theorem Zeroed.step (zeroed : s.Zeroed c) (buffered : s.Buffered) (small : s.len < 2 ^ 32)
    (found : step dbg s t choice = some s')
    : s'.Zeroed (c.run t (s.memoryEffects t choice)) := by
  have moves := step_moves found
  have learns : s.Learns t c (c.run t (s.memoryEffects t choice)) := learns
  have mine : (s.pc t).Anchored (fun _ => True)
      (s.KnowsZeroed (c.run t (s.memoryEffects t choice)) ((c.run t (s.memoryEffects t choice)).knows t)) :=
    (zeroed.anchored t).mono (fun _ => id) fun _ knows => knows.step buffered (learns.knows t)
  refine ⟨fun u => ?_, fun guard member => ?_, fun guard member => ?_, fun chunk buffer there => ?_,
    fun u chunk buffer holds => ?_, fun i access past buffer logged about => ?_⟩
  · by_cases self : u = t
    · subst self
      refine (moves.leads.anchored ?_ mine).mono (fun _ => id) fun _ knows => knows.moves moves
      refine ⟨fun _ _ => trivial, fun _ => trivial, fun _ _ => trivial, fun _ _ => trivial,
        fun _ _ => trivial, fun idx next about _ present => ?_⟩
      obtain ⟨buffer, there⟩ := Option.isSome_iff_exists.mp present
      have loads : c.released (.chunk (chunkOf idx)) ⊆ (c.run u (s.memoryEffects u choice)).knows u := by
        simp only [memoryEffects, about, Clocks.run_cons, Clocks.run_nil]
        exact Clocks.released_subset_read rfl
      exact ⟨buffer, there,
        covers_zeroed (zeroed.installed _ _ there) (buffered.inv.cells _ _ there).1 loads⟩
    · rw [moves.others u self]
      exact (zeroed.anchored u).mono (fun _ => id) fun _ knows =>
        (knows.step buffered (learns.knows u)).moves moves
  · by_cases old : guard ∈ s.guards
    · exact Nat.lt_of_lt_of_le (zeroed.ids guard old) moves.hands.guardIds_le
    · exact (moves.hands.new (c := c) choice member old).1
  · by_cases old : guard ∈ s.guards
    · exact ((zeroed.guards guard old).step buffered
        (learns.lent _ (Nat.ne_of_lt (zeroed.ids guard old)))).moves moves
    · obtain ⟨_, refers, _, lent⟩ := moves.hands.new (c := c) choice member old
      have knows := mine.of_slotRef refers
      obtain ⟨buffer, there, covers⟩ := knows.moves moves
      exact ⟨buffer, there, covers.mono lent⟩
  · have kept (before : s.chunks chunk = some buffer) :
        (c.run t (s.memoryEffects t choice)).Covers
          ((c.run t (s.memoryEffects t choice)).released (.chunk chunk)) (· = .zeroed buffer) :=
      covers_zeroed (zeroed.installed _ _ before) (buffered.inv.cells _ _ before).1
        (learns.chunk chunk)
    cases moves.stores with
    | kept chunks => exact kept (chunks ▸ there)
    | allocated _ _ _ reached =>
        rw [reached] at there
        exact kept there
    | installed place new after about absent reached =>
        rw [reached] at there
        by_cases same : chunk = place
        · subst same
          change Function.update s.chunks chunk new chunk = some buffer at there
          rw [Function.update_self] at there
          subst there
          have holds : (s.pc t).allocation = some (after.chunk, buffer) := about ▸ rfl
          have publishes : c.knows t
              ⊆ (c.run t (s.memoryEffects t choice)).released (.chunk chunk) := by
            simp only [memoryEffects, about, absent, Option.isNone_none, MemoryEffect.exchange, if_true,
              Clocks.run_cons, Clocks.run_nil]
            exact Clocks.knows_subset_read.trans (Clocks.knows_subset_update rfl)
          exact covers_zeroed (zeroed.allocated t _ _ holds) (buffered.inv.held _ _ _ holds).1
            publishes
        · exact kept ((Function.update_of_ne same _ _).symm.trans there)
  · by_cases self : u = t
    · subst self
      rcases allocation_of_step found (buffered.asks u) small holds with
        ⟨⟨place, after, about⟩, rfl, rfl⟩ | before
      · refine Clocks.Covers.own fun i access past logged same => ?_
        subst same
        exact absurd (zeroed.named i _ past _ logged rfl) (Nat.lt_irrefl _)
      · exact covers_zeroed (zeroed.allocated u _ _ before) (buffered.inv.held _ _ _ before).1
          (learns.knows u)
    · rw [moves.others u self] at holds
      exact covers_zeroed (zeroed.allocated u _ _ holds) (buffered.inv.held _ _ _ holds).1
        (learns.knows u)
  · rcases Clocks.logged_run logged with before | ⟨now, _⟩
    · exact Nat.lt_of_lt_of_le (zeroed.named i access past buffer before about)
        moves.stores.buffers_le
    · have placed {place : Nat} (there : s.bufferOf place = some buffer) : buffer < s'.buffers :=
        Nat.lt_of_lt_of_le (buffered.inv.cells _ _ there).1 moves.stores.buffers_le
      rcases accessed_of_effects now with
        ⟨rfl, rfl, place, after, allocates⟩ | ⟨place, _, rfl | ⟨rfl, _⟩⟩ | ⟨_, guard, _, _, rfl⟩
      · cases about
        simp only [step, allocates] at found
        cases found
        exact Nat.lt_succ_self _
      all_goals exact placed about

-----------------------------------------------------------------------------------------
-- Calls on guards
-----------------------------------------------------------------------------------------

omit [DecidableEq T] [Fintype T] in
theorem effects_of_calls {op : Op K} (calls : (s.pc t).Calls op)
    : s.memoryEffects t (.call op) = s.callEffects op := by
  rcases calls with ⟨about, _⟩ | ⟨_, about, _⟩ <;> simp only [memoryEffects, about]

omit [Key K] [Fintype T] in
/-- A decrement releases what its activity knows. -/
theorem released_of_dec : c.knows t ⊆ (c.run t (s.decEffects idx)).released (.refCount idx) := by
  have updated : c.knows t
      ⊆ ((c.apply t (s.touch idx)).apply t (.update (.refCount idx) .release)).released
        (.refCount idx) :=
    (Clocks.knows_subset_apply _).trans
      (Clocks.knows_subset_read.trans (Clocks.knows_subset_update rfl))
  rw [decEffects]
  split <;> exact updated

omit [Key K] [Fintype T] in
/-- The last decrement acquires what all others have released. -/
theorem known_of_last_dec (last : (s.slots idx).refCount = 1)
    : (c.run t (s.decEffects idx)).released (.refCount idx)
      ⊆ (c.run t (s.decEffects idx)).knows t := by
  rw [decEffects, if_pos last]
  exact Clocks.released_subset_fence

end Sys

/-- Who is about to give up the reference of a guard waits or decrements, by cases on the program
counter.
-/
theorem Pc.eq_of_unguarding {pc : Pc K V E} {guard : Guard K V} (role : pc.role = .unguarding guard)
    : pc = .unguardDec guard
      ∨ (∃ idx next, pc = .waitForChunk idx next ∧ next.role = .unguarding guard)
      ∨ ∃ idx next,
          (pc = .assertRefCount idx next ∨ pc = .assertVersion idx next)
          ∧ next.role = .unguarding guard := by
  cases pc with
  | unguardDec other =>
      cases role
      exact Or.inl rfl
  | waitForChunk idx next => exact Or.inr (Or.inl ⟨idx, next, rfl, role⟩)
  | assertRefCount idx next => exact Or.inr (Or.inr ⟨idx, next, Or.inl rfl, role⟩)
  | assertVersion idx next => exact Or.inr (Or.inr ⟨idx, next, Or.inr rfl, role⟩)
  | ensureLoad _ after | ensureAlloc _ after | ensureCas _ _ after | ensureDealloc _ after =>
      cases after <;> cases role
  | pushLoad _ after | pushStore _ _ after | pushCas _ _ after => cases after <;> cases role
  | _ => cases role

namespace Sys

variable [DecidableEq T] [Fintype T] {dbg : Bool} {s s' : Sys T K V E} {t : T}
  {choice : Choice K V E} {idx : Nat} {c : MemoryClocks T} {free : List Nat}

-----------------------------------------------------------------------------------------
-- Cells
-----------------------------------------------------------------------------------------

/-- A read that the users of a guard know of: they tell whoever drops the guard, and the one who
drops it knows.
-/
def Borrowed (s : Sys T K V E) (c : MemoryClocks T) (idx i : Nat) : Prop :=
  (∃ guard,
    (guard ∈ s.guards ∨ guard ∈ s.forgotten)
    ∧ KeyData.idx guard.key = idx
    ∧ i ∈ c.released (.returned guard.id))
  ∨ ∃ t guard,
      (s.pc t).role = .unguarding guard ∧ KeyData.idx guard.key = idx ∧ i ∈ c.knows t

/-- A borrowed read stays borrowed, until the reference count tells of it. -/
theorem Borrowed.step (inv : s.Inv free) {i : Nat} (borrowed : s.Borrowed c idx i)
    (found : step dbg s t choice = some s')
    : i ∈ (c.run t (s.memoryEffects t choice)).released (.refCount idx)
      ∨ s'.Borrowed (c.run t (s.memoryEffects t choice)) idx i := by
  have moves := step_moves found
  have learns : s.Learns t c (c.run t (s.memoryEffects t choice)) := learns
  rcases borrowed with ⟨guard, member, place, returned⟩ | ⟨u, guard, role, place, knows⟩
  · have kept (member : guard ∈ s'.guards ∨ guard ∈ s'.forgotten) :
        i ∈ (c.run t (s.memoryEffects t choice)).released (.refCount idx)
        ∨ s'.Borrowed (c.run t (s.memoryEffects t choice)) idx i :=
      Or.inr (Or.inl ⟨guard, member, place, learns.returned _ returned⟩)
    cases moves.hands with
    | kept guards forgotten => exact kept (by rwa [guards, forgotten])
    | made new guards forgotten =>
        rw [guards, forgotten] at kept
        exact kept (member.imp_left (List.mem_cons_of_mem _))
    | forgot id other _ first guards forgotten =>
        rw [guards, forgotten] at kept
        rcases member with member | member
        · rcases List.mem_cons.mp ((perm_eraseP_of_find? first).mem_iff.mp member) with rfl | rest
          · exact kept (Or.inr List.mem_cons_self)
          · exact kept (Or.inl rest)
        · exact kept (Or.inr (List.mem_cons_of_mem _ member))
    | dropping id other calls first guards forgotten _ goes began =>
        rw [guards, forgotten] at kept
        rcases member with member | member
        · rcases List.mem_cons.mp ((perm_eraseP_of_find? first).mem_iff.mp member) with rfl | rest
          · obtain rfl : choice = .call (.dropGuard id) :=
              eq_call_of_began found calls began (by rw [goes]; exact ⟨nofun, nofun⟩)
            have named : guard.id = id := by simpa using List.find?_some first
            have told : (c.apply t (.load (.lent id) .acquire)).released (.returned id)
                ⊆ (c.run t (s.memoryEffects t (.call (.dropGuard id)))).knows t := by
              rcases calls with ⟨about, _⟩ | ⟨_, about, _⟩
              all_goals
                simp only [memoryEffects, about, callEffects, Clocks.run_cons, Clocks.run_nil]
                exact Clocks.released_subset_read rfl
            refine Or.inr (Or.inr ⟨t, guard, ?_, place, told (named ▸ returned)⟩)
            rw [goes]
            rfl
          · exact kept (Or.inl rest)
        · exact kept (Or.inr member)
  · by_cases self : u = t
    · subst self
      have kept (role : (s'.pc u).role = .unguarding guard) :
          s'.Borrowed (c.run u (s.memoryEffects u choice)) idx i :=
        Or.inr ⟨u, guard, role, place, learns.knows u knows⟩
      rcases Pc.eq_of_unguarding role with about | ⟨chunk, next, about, waits⟩
          | ⟨slot, next, about, waits⟩
      · left
        simp only [memoryEffects, about, place]
        exact released_of_dec knows
      · simp only [step, about] at found
        cases Choice.eq_of_onGo found
        refine Or.inr (kept ?_)
        split
        · rw [pc_goto_self]
          exact waits
        · exact role
      · have fits := inv.fits u
        rcases about with about | about
        all_goals
          rw [about] at fits
          have vacant := fits.1
          rw [waits] at vacant
          exact vacant.elim
    · exact Or.inr (Or.inr ⟨u, guard, moves.others u self ▸ role, place, learns.knows u knows⟩)

/-- What is known of the accesses to a cell that guards may read. -/
structure SharedCell (s : Sys T K V E) (c : MemoryClocks T) (idx : Nat) : Prop where
  writes : c.Covers (c.released (.refCount idx)) (·.writes idx)
  reads
    : ∀ (i : Nat) (access : MemoryAccess) (past : Finset Nat),
        c.log[i]? = some (access, past) → access.cell idx →
        i ∈ c.released (.refCount idx) ∨ s.Borrowed c idx i

/-- Who knows of the accesses to a cell: whoever holds the slot, whoever pops it from the free list,
or the holders of references between them.
-/
def CellKnown (s : Sys T K V E) (c : MemoryClocks T) (idx : Nat) : Phase T K V → Prop
  | .unborn => c.Covers ∅ (·.cell idx)
  | .free => c.Covers (c.released .freeHead) (·.cell idx)
  | .held holder | .filled holder _ | .dropping holder _ _ | .emptied holder =>
      c.Covers (c.knows holder) (·.cell idx)
  | .armed _ _ | .live _ _ | .retired _ _ _ => s.SharedCell c idx
  | .lost => True

/-- What all activities know of the accesses to cells. -/
structure Synced (s : Sys T K V E) (c : MemoryClocks T) : Prop where
  cells : ∀ idx, s.CellKnown c idx (phaseOf s.trace idx)
  guards
    : ∀ guard ∈ s.guards, c.Covers (c.released (.lent guard.id)) (·.writes (KeyData.idx guard.key))
  sharing : ∀ t idx, (s.pc t).shares = some idx → c.Covers (c.knows t) (·.writes idx)

omit [DecidableEq T] [Fintype T] in
theorem CellKnown.shared {phase : Phase T K V} (known : s.CellKnown c idx phase)
    (shared : phase.shared)
    : s.SharedCell c idx := by
  cases phase with
  | armed | live | retired => exact known
  | _ => exact shared.elim

/-- Who writes to a cell or drops its content holds the slot, by cases on the program counter. -/
theorem Inv.held_of_accesses (inv : s.Inv free) (accesses : (s.pc t).accesses = some idx)
    : phaseOf s.trace idx = .held t ∨ ∃ key stored, phaseOf s.trace idx = .dropping t key stored := by
  cases about : s.pc t with
  | insertWrite place version value =>
      rw [about] at accesses
      cases accesses
      exact Or.inl (inv.owned.phase_reserved (show (s.pc t).role = .reserved idx from about ▸ rfl))
  | dropValue place after =>
      rw [about] at accesses
      cases accesses
      exact Or.inr (inv.owned.phase_dropping (show (s.pc t).role = .dropping idx from about ▸ rfl))
  | _ =>
      rw [about] at accesses
      cases accesses

/-- Who stores the reference count of a slot holds it. -/
theorem Inv.filled_of_arms (inv : s.Inv free) (arms : (s.pc t).arms = some idx)
    : ∃ stored, phaseOf s.trace idx = .filled t stored := by
  cases about : s.pc t with
  | insertRefCount place version stored =>
      rw [about] at arms
      cases arms
      exact ⟨stored,
        inv.owned.phase_filled (show (s.pc t).role = .filled idx stored from about ▸ rfl)⟩
  | _ =>
      rw [about] at arms
      cases arms

/-- The slot of a guard is in a shared phase. -/
theorem Inv.shared_of_guard (inv : s.Inv free) {guard : Guard K V} (member : guard ∈ s.guards)
    : (phaseOf s.trace (KeyData.idx guard.key)).shared :=
  (inv.owned.guards guard (Multiset.mem_coe.mpr (List.mem_append_left _ member))).shared

/-- Only who holds a slot writes to its cell. -/
theorem Inv.unwritten (inv : s.Inv free)
    (apart
      : phaseOf s.trace idx ≠ .held t
        ∧ ∀ key stored, phaseOf s.trace idx ≠ .dropping t key stored)
    {access : MemoryAccess} (member : .access access ∈ s.memoryEffects t choice)
    : ¬ access.writes idx := by
  intro writes
  rcases accessed_of_effects member with
    ⟨rfl, _⟩ | ⟨place, _, rfl | ⟨rfl, accesses⟩⟩ | ⟨_, _, _, _, rfl⟩
  · exact writes
  · exact writes
  · obtain rfl : place = idx := writes
    rcases inv.held_of_accesses accesses with held | ⟨key, stored, dropping⟩
    · exact apart.1 held
    · exact apart.2 key stored dropping
  · exact writes

/-- Other cells are not accessed, unless they are shared. -/
theorem Inv.unaccessed (inv : s.Inv free) (alone : ¬ (phaseOf s.trace idx).shared)
    (apart
      : phaseOf s.trace idx ≠ .held t
        ∧ ∀ key stored, phaseOf s.trace idx ≠ .dropping t key stored)
    {access : MemoryAccess} (member : .access access ∈ s.memoryEffects t choice)
    : ¬ access.cell idx := by
  intro cell
  have unwritten := inv.unwritten apart member
  rcases accessed_of_effects member with
    ⟨rfl, _⟩ | ⟨place, _, rfl | ⟨rfl, accesses⟩⟩ | ⟨_, guard, _, first, rfl⟩
  · exact cell
  · exact cell
  · exact unwritten cell
  · obtain rfl : KeyData.idx guard.key = idx := cell
    exact alone (inv.shared_of_guard (List.mem_of_find?_eq_some first))

omit [Key K] in
omit [DecidableEq T] [Fintype T] in
theorem apart_of_shared {phase : Phase T K V} (shared : phase.shared)
    : phase ≠ .held t ∧ ∀ key stored, phase ≠ .dropping t key stored :=
  ⟨by rintro rfl; exact shared, by rintro key stored rfl; exact shared⟩

/-- What is known of a shared cell stays known, and a new read is borrowed. -/
theorem SharedCell.step (known : s.SharedCell c idx) (inv : s.Inv free)
    (shared : (phaseOf s.trace idx).shared) (found : step dbg s t choice = some s')
    : s'.SharedCell (c.run t (s.memoryEffects t choice)) idx := by
  have learns : s.Learns t c (c.run t (s.memoryEffects t choice)) := learns
  have apart := apart_of_shared (t := t) shared
  have refCount : c.released (.refCount idx)
      ⊆ (c.run t (s.memoryEffects t choice)).released (.refCount idx) := by
    refine learns.refCount idx fun arms => ?_
    obtain ⟨stored, filled⟩ := inv.filled_of_arms arms
    rw [filled] at shared
    exact shared
  refine ⟨(known.writes.mono refCount).run fun _ => inv.unwritten apart,
    fun i access past logged cell => ?_⟩
  rcases Clocks.logged_run logged with before | ⟨now, knows⟩
  · rcases known.reads i access past before cell with told | borrowed
    · exact Or.inl (refCount told)
    · exact borrowed.step inv found
  · have unwritten := inv.unwritten apart now
    rcases accessed_of_effects now with
      ⟨rfl, _⟩ | ⟨place, _, rfl | ⟨rfl, _⟩⟩ | ⟨id, guard, rfl, first, rfl⟩
    · exact cell.elim
    · exact cell.elim
    · exact absurd cell unwritten
    · obtain ⟨calls, called⟩ := call_of_step found
      obtain ⟨_, _, rfl⟩ := Option.map_eq_some_iff.mp called
      refine Or.inr (Or.inl ⟨guard, Or.inl ?_, cell, ?_⟩)
      · dsimp only
        rw [answer_eq]
        exact List.mem_of_find?_eq_some first
      · have named : guard.id = id := by simpa using List.find?_some first
        rw [effects_of_calls calls] at knows ⊢
        rw [named]
        simp only [callEffects, first, Clocks.run_cons, Clocks.run_nil] at knows ⊢
        exact Clocks.knows_subset_update rfl knows

/-- Whoever knows of the accesses to a cell goes on to know of them, by cases on the phase. -/
theorem CellKnown.kept (known : s.CellKnown c idx (phaseOf s.trace idx)) (inv : s.Inv free)
    (found : step dbg s t choice = some s')
    : s'.CellKnown (c.run t (s.memoryEffects t choice)) idx (phaseOf s.trace idx) := by
  have learns : s.Learns t c (c.run t (s.memoryEffects t choice)) := learns
  have others {seen seen' : Finset Nat} (covers : c.Covers seen (·.cell idx)) (more : seen ⊆ seen')
      (alone : ¬ (phaseOf s.trace idx).shared)
      (apart : phaseOf s.trace idx ≠ .held t
        ∧ ∀ key stored, phaseOf s.trace idx ≠ .dropping t key stored) :
      (c.run t (s.memoryEffects t choice)).Covers seen' (·.cell idx) :=
    (covers.mono more).run fun _ => inv.unaccessed alone apart
  generalize about : phaseOf s.trace idx = phase at known others
  cases phase with
  | unborn => exact others known (Finset.Subset.refl _) id ⟨nofun, nofun⟩
  | free => exact others known learns.freeHead id ⟨nofun, nofun⟩
  | held holder | dropping holder =>
      by_cases self : holder = t
      · subst self
        exact Clocks.Covers.own known
      · exact others known (learns.knows holder) id (by simp [self])
  | filled holder | emptied holder =>
      by_cases self : holder = t
      · subst self
        exact Clocks.Covers.own known
      · exact others known (learns.knows holder) id ⟨nofun, nofun⟩
  | armed | live | retired => exact SharedCell.step known inv (about ▸ trivial) found
  | lost => trivial

/-- Nobody has read through a guard of a slot that is not shared. -/
theorem Inv.unborrowed (inv : s.Inv free) (alone : ¬ (phaseOf s.trace idx).shared) {i : Nat}
    : ¬ s.Borrowed c idx i := by
  rintro (⟨guard, member, rfl, _⟩ | ⟨u, guard, role, rfl, _⟩)
  · exact alone
      (inv.owned.guards guard (Multiset.mem_coe.mpr (List.mem_append.mpr member))).shared
  · have fits := inv.owned.roles u (KeyData.idx guard.key)
      (by rw [show (s.view free).role u = _ from role]; rfl)
    rw [show (s.view free).role u = _ from role] at fits
    exact alone (Guard.Fits.shared fits)

omit [Fintype T] in
/-- What holds of the phase of a slot holds after some events if each of them keeps it, by induction
on the events.
-/
theorem phaseOf_append_of {events earlier : List (Event T K V)} {P : Phase T K V → Prop}
    (lawful : Lawful (events ++ earlier)) (start : P (phaseOf earlier idx))
    (keeps
      : ∀ event ∈ events, event.slot = some idx → ∀ phase length,
          Phase.Allows phase length event → P phase → P (phase.advance event))
    : P (phaseOf (events ++ earlier) idx) := by
  induction events with
  | nil => exact start
  | cons event events ih =>
      have before := ih lawful.2 fun other member => keeps other (List.mem_cons_of_mem _ member)
      rw [List.cons_append, phaseOf]
      split
      · next about =>
        exact keeps event List.mem_cons_self about _ _ (lawful.1 idx about) before
      · exact before

/-- The one who releases the last reference decrements the count. -/
theorem eq_of_decrements {needsDrop otherwise : Pc K V E}
    (decrements : (s.pc t).Decrements idx needsDrop otherwise)
    (found : step dbg s t choice = some s')
    : s' = s.decRefCount t idx needsDrop otherwise ∧ s.memoryEffects t choice = s.decEffects idx := by
  generalize about : s.pc t = pc at decrements
  cases decrements <;>
    · simp only [step, about] at found
      exact ⟨Choice.eq_of_onGo found, by simp only [memoryEffects, about]⟩

/-- An event hands the knowledge of a cell on, by cases on the event. -/
theorem CellKnown.advance {event : Event T K V} {phase : Phase T K V} {length : Nat}
    {free' : List Nat}
    (known : s'.CellKnown (c.run t (s.memoryEffects t choice)) idx phase) (inv' : s'.Inv free')
    (found : step dbg s t choice = some s') (grown : s'.trace ≠ s.trace)
    (caused : s.Caused t s' event) (about : event.slot = some idx)
    (allowed : phase.Allows length event)
    : s'.CellKnown (c.run t (s.memoryEffects t choice)) idx (phase.advance event) := by
  cases event with
  | pushed actor place =>
      obtain rfl : phase = .unborn := allowed
      exact Clocks.Covers.mono known (Finset.empty_subset _)
  | popped actor place =>
      obtain ⟨rfl, old, next, seen, pc, same, rfl⟩ := caused
      obtain rfl : phase = .free := allowed
      refine Clocks.Covers.mono known ?_
      have loads : c.released .freeHead ⊆ (c.read actor .freeHead .acquire).knows actor :=
        Clocks.released_subset_read rfl
      simp only [memoryEffects, pc]
      split
      · exact loads
      · rw [same, beq_self_eq_true]
        exact Clocks.released_subset_update rfl
  | recycled actor place =>
      obtain ⟨rfl, old, after, pc⟩ := caused
      have told : (c.run actor (s.memoryEffects actor choice)).knows actor
          ⊆ (c.run actor (s.memoryEffects actor choice)).released .freeHead := by
        simp only [step, pc] at found
        simp only [memoryEffects, pc]
        cases choice with
        | spurious =>
            cases found
            exact absurd rfl grown
        | go =>
            cases same : s.freeHead == old with
            | false =>
                rw [same] at found
                cases found
                exact absurd rfl grown
            | true => exact Clocks.knows_subset_update rfl
        | _ => cases found
      rcases allowed with rfl | rfl <;> exact Clocks.Covers.mono known told
  | wrote actor place stored =>
      obtain ⟨rfl, _⟩ := allowed
      exact known
  | armed actor place =>
      obtain ⟨rfl, version, stored, pc⟩ := caused
      obtain ⟨_, rfl⟩ := allowed
      cases about
      have told : (c.run actor (s.memoryEffects actor choice)).knows actor
          ⊆ (c.run actor (s.memoryEffects actor choice)).released (.refCount idx) := by
        simp only [memoryEffects, pc]
        exact Clocks.knows_subset_store rfl
      have covers := Clocks.Covers.mono known told
      exact ⟨fun i access past logged writes => covers i access past logged
          (MemoryAccess.cell_of_writes writes),
        fun i access past logged cell => Or.inl (covers i access past logged cell)⟩
  | published actor key stored =>
      obtain rfl : phase = .armed actor stored := allowed
      exact known
  | retired actor key =>
      obtain ⟨_, _, rfl, _⟩ := allowed
      exact known
  | gaveUp actor place =>
      have shared : phase.shared := allowed
      cases phase with
      | armed | live | retired => exact known
      | _ => exact shared.elim
  | released actor place =>
      obtain ⟨rfl, last, needsDrop, otherwise, decrements⟩ := caused
      obtain ⟨_, _, _, rfl, _⟩ := allowed
      cases about
      obtain ⟨reached, effects⟩ := eq_of_decrements decrements found
      have trace : s'.trace = .released actor idx :: s.trace := by
        rw [reached, decRefCount, if_pos last]
        rfl
      have lawful : Lawful s'.trace := inv'.owned.lawful
      rw [trace] at lawful
      obtain ⟨_, _, _, retired, _⟩ := lawful.1 idx rfl
      have alone : ¬ (phaseOf s'.trace idx).shared := by
        simp [trace, phaseOf, Event.slot, retired, Phase.advance, Phase.shared]
      intro i access past logged cell
      rcases SharedCell.reads known i access past logged cell with told | borrowed
      · rw [effects] at told ⊢
        exact known_of_last_dec last told
      · exact absurd borrowed (inv'.unborrowed alone)
  | dropped actor place data =>
      obtain ⟨_, _, rfl, _⟩ := allowed
      exact known
  | leaked => trivial
  | counted | discounted | allocated | installed | deallocated => cases about

/-- Who is about to make a guard has a reference to the slot, or has borrowed a guard on it; by
induction on the waits.
-/
theorem Inv.shared_of_shares (inv : s.Inv free) (shares : (s.pc t).shares = some idx)
    : (phaseOf s.trace idx).shared := by
  have source (pc : Pc K V E) (shares : pc.shares = some idx) (fits : pc.Fits s) :
      pc.role = .temp idx ∨ ∃ guard ∈ s.guards, KeyData.idx guard.key = idx := by
    induction pc with
    | waitForChunk _ next ih => exact ih shares fits
    | assertRefCount _ next ih | assertVersion _ next ih => exact ih shares fits.2
    | acquireVersion =>
        cases shares
        exact Or.inl rfl
    | cloneInc guard =>
        cases shares
        exact Or.inr ⟨guard, fits, rfl⟩
    | _ => cases shares
  rcases source _ shares (inv.fits t) with temp | ⟨guard, member, rfl⟩
  · have fits := inv.owned.roles t idx (by rw [show (s.view free).role t = _ from temp]; rfl)
    rw [show (s.view free).role t = _ from temp] at fits
    exact fits
  · exact inv.shared_of_guard member

omit [Fintype T] in
/-- An activity goes on to make a guard once it has a temporary reference, or when it clones one of
the guards; by cases on the move.
-/
theorem Moves.shares (moves : s.Moves dbg t s') (shares : (s'.pc t).shares = some idx)
    : (s.pc t).shares = some idx
      ∨ (∃ key getter refcount,
          s.pc t = .acquireCas key getter refcount
          ∧ s'.pc t = .acquireVersion key getter
          ∧ KeyData.idx key = idx
          ∧ (s.slots idx).refCount = refcount)
      ∨ ∃ id guard,
          (s.pc t).Calls (.cloneGuard id : Op K)
          ∧ s'.current t = some (s.calls, .cloneGuard id)
          ∧ guard ∈ s.guards ∧ guard.id = id ∧ KeyData.idx guard.key = idx := by
  have going {staged : Sys T K V E} {pc : Pc K V E}
      (shares : ((staged.goto t pc).pc t).shares = some idx) : pc.shares = some idx := by
    rwa [pc_goto_self] at shares
  have never {staged : Sys T K V E} {pc : Pc K V E} (none : pc.shares = none)
      (shares : ((staged.goto t pc).pc t).shares = some idx) : False := by
    rw [going shares] at none
    cases none
  cases moves with
  | stay => exact Or.inl shares
  | go pc goes =>
      have made := going shares
      left
      generalize s.pc t = before at goes
      cases goes with
      | arrived | unreferenced | unoccupied => exact made
      | _ => simp [Pc.shares] at made
  | answered res pc answers =>
      have made := going shares
      generalize s.pc t = before at answers
      cases answers <;> simp [Pc.shares] at made
  | failed | dropPanicked =>
      rw [pc_unwind_self] at shares
      cases shares
  | began op pc calls starts =>
      have made := going shares
      cases starts with
      | cloneGuard id guard member named =>
          cases made
          exact Or.inr (Or.inr ⟨id, guard, calls, Function.update_self .., member, named, rfl⟩)
      | _ => cases made
  | acquired key getter refcount about same =>
      have place : KeyData.idx key = idx := Option.some.inj (going shares)
      exact Or.inr (Or.inl ⟨key, getter, refcount, about, pc_goto_self _ t _, place, place ▸ same⟩)
  | retired key current about same =>
      rw [removeExchange, if_pos same] at shares
      exact (never rfl shares).elim
  | decremented place needsDrop otherwise decrements =>
      have done : needsDrop.shares = none ∧ otherwise.shares = none := by
        generalize s.pc t = before at decrements
        cases decrements <;> simp [Pc.shares]
      rw [decRefCount] at shares
      split at shares
      · exact (never done.1 shares).elim
      · exact (never done.2 shares).elim
  | guarded key getter about same =>
      simp only [acquireCheck, if_pos same] at shares
      exact (never rfl shares).elim
  | cloned guard about =>
      rw [cloneGuard] at shares
      split at shares
      · exact (never rfl shares).elim
      · rw [pc_unwind_self] at shares
        cases shares
  | popped | recycled | dropped | installed | deallocated | returned =>
      exact (never (by simp [Pc.shares]) shares).elim
  | _ => exact (never rfl shares).elim

omit [Key K] [Fintype T] in
/-- The loop of `acquire_guard` does not get past its exchange by itself. -/
theorem acquireLoop_pc_ne {key key' : K} {getter getter' : Getter} {refcount : Nat}
    : (s.acquireLoop t key getter refcount).pc t ≠ .acquireVersion key' getter' := by
  intro reached
  rw [acquireLoop] at reached
  split at reached
  · rw [pc_unwind_self] at reached
    cases reached
  · split at reached
    · rw [pc_goto_self] at reached
      cases getter <;> cases reached
    · rw [pc_goto_self] at reached
      cases reached

/-- A temporary reference acquires what all who had references before have released. -/
theorem released_of_acquired {key : K} {getter : Getter} {refcount : Nat}
    (found : step dbg s t choice = some s') (about : s.pc t = .acquireCas key getter refcount)
    (reached : s'.pc t = .acquireVersion key getter)
    (same : (s.slots (KeyData.idx key)).refCount = refcount)
    : c.released (.refCount (KeyData.idx key)) ⊆ (c.run t (s.memoryEffects t choice)).knows t := by
  simp only [step, about] at found
  cases choice with
  | spurious =>
      cases found
      exact absurd reached acquireLoop_pc_ne
  | go =>
      have loads (c : MemoryClocks T)
          : c.released (.refCount (KeyData.idx key))
            ⊆ (c.read t (.refCount (KeyData.idx key)) .acquire).knows t :=
        Clocks.released_subset_read rfl
      simp only [memoryEffects, about, same, beq_self_eq_true]
      exact loads (c.apply t (s.touch (KeyData.idx key)))
  | _ => cases found

/-- Every step keeps what is known of the accesses to cells. -/
theorem Synced.step (synced : s.Synced c) (inv : s.Inv free) {free' : List Nat}
    (inv' : s'.Inv free') (ids : ∀ guard ∈ s.guards, guard.id < s.guardIds)
    (found : step dbg s t choice = some s')
    : s'.Synced (c.run t (s.memoryEffects t choice)) := by
  have moves := step_moves found
  have learns : s.Learns t c (c.run t (s.memoryEffects t choice)) := learns
  refine ⟨fun idx => ?_, fun guard member => ?_, fun u idx shares => ?_⟩
  · obtain ⟨events, trace, caused⟩ := moves.causes
    have lawful : Lawful s'.trace := inv'.owned.lawful
    rw [trace] at lawful ⊢
    refine phaseOf_append_of lawful ((synced.cells idx).kept inv found)
      fun event member about phase length allowed known => ?_
    refine known.advance inv' found ?_ (caused event member) about allowed
    intro same
    obtain rfl : events = [] := by simpa [trace] using same
    cases member
  · by_cases old : guard ∈ s.guards
    · exact ((synced.guards guard old).mono (learns.lent _ (Nat.ne_of_lt (ids guard old)))).run
        fun _ => inv.unwritten (apart_of_shared (inv.shared_of_guard old))
    · obtain ⟨_, _, source, lent⟩ := moves.hands.new (c := c) choice member old
      have shares : (s.pc t).shares = some (KeyData.idx guard.key) := by
        rcases source with ⟨getter, about⟩ | ⟨cloned, about, same⟩
        · exact congrArg Pc.shares about
        · rw [about, ← same]
          rfl
      exact (synced.sharing t _ shares).own.mono lent
  · by_cases self : u = t
    · subst self
      rcases moves.shares shares with
        before | ⟨key, getter, refcount, about, reached, rfl, same⟩
        | ⟨id, guard, calls, began, member, rfl, rfl⟩
      · exact (synced.sharing u idx before).own
      · have fits := inv.fits u
        rw [about] at fits
        have positive : 0 < (s.slots (KeyData.idx key)).refCount := same ▸ fits.1
        have shared := (inv.owned.slots (KeyData.idx key)).shared_of_pos positive
        exact (((synced.cells _).shared shared).writes.mono
          (released_of_acquired found about reached same)).run
          fun _ => inv.unwritten (apart_of_shared shared)
      · have busy : s'.pc u ≠ .idle ∧ s'.pc u ≠ .iterating 0 := by
          constructor <;>
            · intro rests
              rw [rests] at shares
              cases shares
        obtain rfl := eq_call_of_began found calls began busy
        have borrows : c.released (.lent guard.id)
            ⊆ (c.run u (s.memoryEffects u (.call (.cloneGuard guard.id)))).knows u := by
          rw [effects_of_calls calls]
          exact Clocks.released_subset_read rfl
        exact ((synced.guards guard member).mono borrows).run
          fun _ => inv.unwritten (apart_of_shared (inv.shared_of_guard member))
    · rw [moves.others u self] at shares
      exact ((synced.sharing u idx shares).mono (learns.knows u)).run
        fun _ => inv.unwritten (apart_of_shared (inv.shared_of_shares shares))

-----------------------------------------------------------------------------------------
-- Accesses in order
-----------------------------------------------------------------------------------------

omit [DecidableEq T] [Fintype T] in
/-- What conflicts with an access to a slot zeroes its buffer, or accesses its cell. -/
theorem conflicts_cases {earlier : MemoryAccess} {buffer : Option Nat} :
    (earlier.Conflicts (.word buffer idx) → ∃ zeroed, earlier = .zeroed zeroed ∧ buffer = some zeroed)
    ∧ (earlier.Conflicts (.write buffer idx) →
        (∃ zeroed, earlier = .zeroed zeroed ∧ buffer = some zeroed) ∨ earlier.cell idx)
    ∧ (earlier.Conflicts (.read buffer idx) →
        (∃ zeroed, earlier = .zeroed zeroed ∧ buffer = some zeroed) ∨ earlier.writes idx) := by
  cases earlier <;> simp [MemoryAccess.Conflicts, MemoryAccess.buffer, MemoryAccess.cell,
    MemoryAccess.writes]

/-- A step keeps conflicting accesses ordered, by cases on what it accesses. -/
theorem ordered_step (ordered : c.Ordered MemoryAccess.Conflicts) (zeroed : s.Zeroed c)
    (synced : s.Synced c) (inv : s.Inv free) (found : step dbg s t choice = some s')
    : (c.run t (s.memoryEffects t choice)).Ordered MemoryAccess.Conflicts := by
  by_cases reads : ∃ id guard,
      choice = .call (.derefGuard id) ∧ s.guards.find? (·.id == id) = some guard
  · obtain ⟨id, guard, rfl, first⟩ := reads
    obtain ⟨calls, _⟩ := call_of_step found
    have lent := List.mem_of_find?_eq_some first
    have named : guard.id = id := by simpa using List.find?_some first
    have borrows : c.released (.lent id) ⊆ (c.read t (.lent id) .acquire).knows t :=
      Clocks.released_subset_read rfl
    rw [effects_of_calls calls]
    simp only [callEffects, first]
    -- the user acquires the guard before it reads through it
    refine Clocks.Ordered.run (c := c.read t (.lent id) .acquire) ordered
      fun access member i earlier past logged conflicts => ?_
    simp only [List.mem_cons, List.not_mem_nil, or_false, reduceCtorEq,
      MemoryEffect.access.injEq] at member
    subst member
    rcases conflicts_cases.2.2 conflicts with ⟨buffer, rfl, there⟩ | writes
    · obtain ⟨_, there', covers⟩ := zeroed.guards guard lent
      cases there'.symm.trans there
      exact borrows (named ▸ covers i _ past logged rfl)
    · exact borrows (named ▸ synced.guards guard lent i _ past logged writes)
  · refine ordered.run fun access member i earlier past logged conflicts => ?_
    have known {place buffer : Nat} (refers : (s.pc t).slotRef = some place)
        (there : s.bufferOf place = some buffer) (same : earlier = .zeroed buffer) :
        i ∈ c.knows t := by
      obtain ⟨_, there', covers⟩ := (zeroed.anchored t).of_slotRef refers
      cases there'.symm.trans there
      exact covers i _ past logged same
    rcases accessed_of_effects member with
      ⟨rfl, _⟩ | ⟨place, refers, rfl | ⟨rfl, accesses⟩⟩ | ⟨id, guard, rfl, first, _⟩
    · have about : earlier.buffer = some s.buffers := by
        cases earlier with
        | zeroed buffer => exact Eq.symm conflicts
        | _ => exact conflicts
      exact absurd (zeroed.named i earlier past _ logged about) (Nat.lt_irrefl _)
    · obtain ⟨buffer, same, there⟩ := conflicts_cases.1 conflicts
      exact known refers there same
    · rcases conflicts_cases.2.1 conflicts with ⟨buffer, same, there⟩ | cell
      · exact known refers there same
      · have cells := synced.cells place
        rcases inv.held_of_accesses accesses with held | ⟨key, stored, dropping⟩
        · rw [held] at cells
          exact cells i earlier past logged cell
        · rw [dropping] at cells
          exact cells i earlier past logged cell
    · exact absurd ⟨id, guard, rfl, first⟩ reads

omit [Fintype T] in
theorem Synced.withKey : (Sys.withKey T K V E).Synced (.start : MemoryClocks T) where
  cells _ := nofun
  guards := nofun
  sharing _ _ := nofun

/-- In every run the activities know what they have to, and conflicting accesses are ordered; by
induction on the run.
-/
theorem Clocked.ordered (clocked : Clocked dbg s c)
    : s.Zeroed c ∧ s.Synced c ∧ c.Ordered MemoryAccess.Conflicts := by
  have along (final : Sys T K V E × MemoryClocks T)
      (run : Relation.ReflTransGen (ClockedNext dbg) (.withKey T K V E, .start) final) :
      final.1.Zeroed final.2 ∧ final.1.Synced final.2
        ∧ final.2.Ordered MemoryAccess.Conflicts := by
    induction run with
    | refl => exact ⟨.withKey, .withKey, .start⟩
    | @tail before after earlier last ih =>
        have reachable : Reachable dbg before.1 := Clocked.reachable earlier
        have reachable' : Reachable dbg after.1 := Clocked.reachable (earlier.tail last)
        obtain ⟨t, choice, within, found, learned⟩ := last
        obtain ⟨free, inv⟩ := reachable.inv
        obtain ⟨free', inv'⟩ := reachable'.inv
        obtain ⟨zeroed, synced, ordered⟩ := ih
        rw [learned]
        exact ⟨zeroed.step (buffered_of_run reachable.run) inv.owned.bound found,
          synced.step inv inv' zeroed.ids found, ordered_step ordered zeroed synced inv found⟩
  exact along _ clocked

end Sys

open Sys in
/-- No data race, in any run: of two accesses to the memory of slots that are in conflict the
earlier happens before the later, by the orderings that the source gives to its atomic accesses.
-/
theorem accesses_ordered [DecidableEq T] [Fintype T] {dbg : Bool} {s : Sys T K V E}
    {c : MemoryClocks T} (clocked : Clocked dbg s c)
    : c.Ordered MemoryAccess.Conflicts :=
  clocked.ordered.2.2

/-- One activity inserts a value, the other gets a guard on it and reads it. The first one removes
the key, and the other drops the guard and the value with it.
-/
def removeWhileReading : List (Bool × Choice UInt64 Nat Empty) :=
  Sys.turns false [
    .call .tryInsertWithKey, .go, .go, .go, .go, .go, .closureOk 7, .go, .go, .go, .go, .go, .go,
    .go, .go
  ] ++ Sys.turns true [
    .call (.get ((1 : UInt64) <<< 32) false), .go, .go, .go, .go, .go, .go,
    .call (.derefGuard 0), .go
  ] ++ Sys.turns false [
    .call (.remove ((1 : UInt64) <<< 32)), .go, .go, .go, .go, .go
  ] ++ Sys.turns true [.call (.dropGuard 0), .go, .go, .go, .go]

/-- In that run the value is written by one activity and read and dropped by the other, in order. -/
theorem accesses_ordered_removeWhileReading
    : ∃ c : MemoryClocks Bool,
        (c.log.map Prod.fst).filter (· ≠ .word (some 0) 0)
          = [.zeroed 0, .write (some 0) 0, .read (some 0) 0, .write (some 0) 0]
        ∧ c.Ordered MemoryAccess.Conflicts := by
  have found : (Sys.runClocked true (.withKey Bool UInt64 Nat Empty) .start removeWhileReading).map
      (fun (_, c) => (c.log.map Prod.fst).filter (· ≠ .word (some 0) 0))
      = some [.zeroed 0, .write (some 0) 0, .read (some 0) 0, .write (some 0) 0] := by
    decide +kernel
  obtain ⟨⟨s, c⟩, reached, accesses⟩ := Option.map_eq_some_iff.mp found
  have clocked : Sys.Clocked true s c := .of_run .refl reached
  exact ⟨c, accesses, accesses_ordered clocked⟩

end AtomicSlotMap
