import AtomicSlotMap.Correctness.ChunkOrder
import AtomicSlotMap.Correctness.Locations
import AtomicSlotMap.Library.WriteOnce

/-! Buffers of racing allocations. Any number of activities may allocate a buffer for the same
chunk; the chunk pointers are cells that are written once, and who comes late deallocates its
buffer.
-/

namespace AtomicSlotMap

variable {T K V E : Type} [Key K]

open Library (WriteOnce.Event WriteOnce.State WriteOnce.Step)

/-- The chunk that `ensure_chunk_exists` is called for. -/
def AfterEnsure.chunk : AfterEnsure → Nat
  | .pushed idx => chunkOf idx
  | .reserving chunk _ => chunk

/-- That chunk is one of the table. -/
def AfterEnsure.Bounded : AfterEnsure → Prop
  | .pushed idx => idx < 2 ^ 32
  | .reserving chunk maxChunk => chunk ≤ maxChunk ∧ maxChunk < CHUNKS

/-- The buffer that an activity has allocated and neither installed nor deallocated, after the
chunk it is for.
-/
def Pc.allocation : Pc K V E → Option (Nat × Nat)
  | .ensureCas _ new after | .ensureDealloc new after => new.map (after.chunk, ·)
  | _ => none

/-- Whether an activity is about to allocate, install or deallocate a buffer. -/
def Pc.ensuring : Pc K V E → Bool
  | .ensureAlloc _ _ | .ensureCas _ _ _ | .ensureDealloc _ _ => true
  | _ => false

/-- An activity in `ensure_chunk_exists` is about the chunk that its caller asked for, and nothing
waits before it goes on there.
-/
def Pc.Asks : Pc K V E → Prop
  | .waitForChunk _ next | .assertRefCount _ next | .assertVersion _ next =>
      next.allocation = none ∧ next.Asks
  | .ensureLoad chunk after | .ensureAlloc chunk after | .ensureCas chunk _ after =>
      chunk = after.chunk ∧ after.Bounded
  | .ensureDealloc _ after => after.Bounded
  | _ => True

/-- What an event tells about a buffer. -/
def Event.allocation? : Event T K V → Option (Library.WriteOnce.Event T Nat)
  | .allocated actor chunk buffer _ => some (.made actor chunk buffer)
  | .installed actor chunk (some buffer) => some (.placed actor chunk buffer)
  | .deallocated actor (some buffer) => some (.discarded actor buffer)
  | _ => none

namespace Sys

/-- The chunk pointers as cells and the buffers as tokens. -/
def allocator (s : Sys T K V E) : Library.WriteOnce.State T Nat where
  cells := s.chunks
  tokens := s.buffers
  holds := fun t => (s.pc t).allocation
  events := s.trace.filterMap Event.allocation?

end Sys

section

variable {dbg : Bool} {s : Sys T K V E} {pc pc' : Pc K V E}

/-- A program counter outside of `ensure_chunk_exists`. -/
def Pc.Aside (pc : Pc K V E) : Prop := pc.allocation = none ∧ pc.Asks

omit [Key K] in
theorem Pc.aside_exclusivelyOwned {idx : Nat} {next : Pc K V E} (aside : next.Aside)
    : (Pc.exclusivelyOwned dbg idx next).Aside := by
  cases dbg with
  | false => exact aside
  | true => exact ⟨rfl, rfl, aside⟩

omit [Key K] in
theorem Pc.aside_pushFreeIndex {idx : Nat} {after : AfterPush K E}
    : (Pc.pushFreeIndex dbg idx after : Pc K V E).Aside :=
  have pushing : (Pc.pushLoad idx after : Pc K V E).Aside := ⟨rfl, trivial⟩
  ⟨rfl, Pc.aside_exclusivelyOwned pushing⟩

omit [Key K] in
theorem Pc.aside_popLoop {head updates : Nat} : (Pc.popLoop head updates : Pc K V E).Aside := by
  rw [Pc.popLoop]
  split
  · exact ⟨rfl, trivial⟩
  · exact ⟨rfl, rfl, trivial⟩

omit [Key K] in
theorem Getter.aside_missed (getter : Getter) : (getter.missed : Pc K V E).Aside := by
  cases getter <;> exact ⟨rfl, trivial⟩

omit [Key K] in
theorem AfterPush.aside_resume (after : AfterPush K E) : (after.resume : Pc K V E).Aside := by
  cases after with
  | missed getter => exact getter.aside_missed
  | _ => exact ⟨rfl, trivial⟩

omit [Key K] in
theorem AfterEnsure.Bounded.resume {after : AfterEnsure} (bounded : after.Bounded)
    : (after.resume : Pc K V E).Aside := by
  cases after with
  | pushed idx => exact ⟨rfl, trivial⟩
  | reserving chunk maxChunk =>
      simp only [AfterEnsure.resume]
      split
      · next more => exact ⟨rfl, rfl, more, bounded.2⟩
      · exact ⟨rfl, trivial⟩

omit [Key K] in
theorem Res.aside_rest (res : Res K V E) : res.rest.Aside := by
  cases res <;> exact ⟨rfl, trivial⟩

theorem AfterEnsure.Bounded.chunk_lt {after : AfterEnsure} (bounded : after.Bounded)
    : after.chunk < CHUNKS := by
  cases after with
  | pushed idx => exact chunkOf_lt bounded
  | reserving chunk maxChunk => exact Nat.lt_of_le_of_lt bounded.1 bounded.2

/-- A move of a program counter keeps its buffer, by cases on the move. -/
theorem Pc.Goes.allocation (goes : pc.Goes dbg s pc') (asks : pc.Asks)
    : pc'.allocation = pc.allocation ∧ pc'.Asks := by
  cases goes with
  | arrived | unreferenced | unoccupied => exact asks
  | popLoad | popAgain => exact Pc.aside_popLoop
  | closureOk idx version value =>
      have writing : (Pc.insertWrite idx version value : Pc K V E).Aside := ⟨rfl, trivial⟩
      exact ⟨rfl, Pc.aside_exclusivelyOwned writing⟩
  | ensurePresent chunk after => exact asks.2.resume
  | ensureAbsent | allocNull => exact ⟨rfl, asks⟩
  | installedElsewhere => exact ⟨rfl, asks.2⟩
  | removeFound | getFound | containsFound | nextFound => exact ⟨rfl, rfl, trivial⟩
  | vecReserve additional targetCap sum positive small =>
      exact ⟨rfl, rfl, Nat.zero_le _, chunkOf_lt small⟩
  | _ => exact ⟨rfl, trivial⟩

theorem Pc.Answers.aside {res : Res K V E} (answers : pc.Answers dbg s res pc')
    : pc.allocation = none ∧ pc'.Aside := by
  cases answers with
  | closureErr => exact ⟨rfl, Pc.aside_pushFreeIndex⟩
  | _ => exact ⟨rfl, rfl, trivial⟩

theorem Op.Starts.aside {op : Op K} (starts : op.Starts s pc) : pc.Aside := by
  cases starts <;> first | exact ⟨rfl, trivial⟩ | exact ⟨rfl, rfl, trivial⟩

theorem Pc.Decrements.aside {needsDrop otherwise : Pc K V E} {idx : Nat}
    (decrements : pc.Decrements idx needsDrop otherwise)
    : pc.allocation = none ∧ needsDrop.Aside ∧ otherwise.Aside := by
  cases decrements with
  | remove => exact ⟨rfl, ⟨rfl, trivial⟩, rfl, trivial⟩
  | acquire key getter => exact ⟨rfl, ⟨rfl, trivial⟩, getter.aside_missed⟩
  | unguard => exact ⟨rfl, ⟨rfl, rfl, trivial⟩, rfl, trivial⟩

end

namespace Sys

variable [DecidableEq T] {dbg : Bool} {s s' : Sys T K V E} {t : T}

omit [DecidableEq T] in
/-- Only `ensure_chunk_exists` has events about buffers. -/
theorem Caused.allocation {event : Event T K V} (caused : s.Caused t s' event)
    (outside : (s.pc t).ensuring = false)
    : event.allocation? = none := by
  cases event with
  | allocated actor chunk buffer elements =>
      obtain ⟨_, _, _, after, about⟩ := caused
      rw [about] at outside
      cases outside
  | installed actor chunk buffer =>
      obtain ⟨_, _, after, about⟩ := caused
      rw [about] at outside
      cases outside
  | deallocated actor buffer =>
      obtain ⟨_, after, about⟩ := caused
      rw [about] at outside
      cases outside
  | _ => rfl

omit [DecidableEq T] in
/-- Outside of `ensure_chunk_exists` a step leads to where no buffer is held, by cases on where. -/
theorem Leads.aside {pc : Pc K V E} (leads : s.Leads dbg t pc)
    (outside : (s.pc t).ensuring = false) (asks : (s.pc t).Asks) (small : s.len < 2 ^ 32)
    : pc.Aside := by
  have none : (s.pc t).allocation = none := by
    generalize s.pc t = before at outside
    cases before <;> first | rfl | cases outside
  cases leads with
  | stay => exact ⟨none, asks⟩
  | go pc goes =>
      obtain ⟨same, asks'⟩ := goes.allocation asks
      exact ⟨same.trans none, asks'⟩
  | answered res pc answers => exact answers.aside.2
  | popped => exact Pc.aside_exclusivelyOwned ⟨rfl, rfl, trivial⟩
  | pushed about => exact ⟨rfl, rfl, small⟩
  | allocated chunk buffer after about =>
      rw [about] at outside
      cases outside
  | ensured after about =>
      rcases about with ⟨chunk, new, about⟩ | ⟨new, about⟩
      all_goals
        rw [about] at outside
        cases outside
  | recycled idx old after => exact after.aside_resume
  | dropped idx after => exact Pc.aside_pushFreeIndex
  | released idx needsDrop otherwise decrements => exact decrements.aside.2.1
  | gaveUp idx needsDrop otherwise decrements => exact decrements.aside.2.2
  | began op pc calls starts => exact starts.aside
  | beganDrop id guard => exact ⟨rfl, rfl, trivial⟩
  | returned res => exact res.aside_rest
  | _ => exact ⟨rfl, trivial⟩

omit [Key K] in
/-- A step that leaves the memory alone, and the buffer of its activity. -/
theorem allocator_of_same (chunks : s'.chunks = s.chunks) (buffers : s'.buffers = s.buffers)
    (events
      : s'.trace.filterMap Event.allocation? = s.trace.filterMap Event.allocation?)
    (others : ∀ u ≠ t, s'.pc u = s.pc u) (mine : (s'.pc t).allocation = (s.pc t).allocation)
    : s'.allocator = s.allocator := by
  have holds : (fun u => (s'.pc u).allocation) = fun u => (s.pc u).allocation := by
    funext u
    by_cases self : u = t
    · rw [self, mine]
    · rw [others u self]
  rw [allocator, allocator, chunks, buffers, events, holds]

omit [Key K] in
/-- The memory after a step of one activity. -/
theorem allocator_goto (staged : Sys T K V E) (same : staged.pc = s.pc) (pc : Pc K V E)
    : (staged.goto t pc).allocator
      = {
          staged.allocator with
          holds := Function.update s.allocator.holds t pc.allocation
        } := by
  have holds : (fun u => ((staged.goto t pc).pc u).allocation)
      = Function.update s.allocator.holds t pc.allocation := by
    funext u
    by_cases self : u = t
    · subst u
      rw [pc_goto_self, Function.update_self]
    · rw [pc_goto_of_ne staged t self, same, Function.update_of_ne self]
      rfl
  rw [← holds]
  rfl

omit [Key K] in
theorem allocation_unwind (s : Sys T K V E) (t : T)
    : (s.unwind t).trace.filterMap Event.allocation? = s.trace.filterMap Event.allocation? := by
  rw [unwind]
  split <;> rfl

variable [Fintype T] {choice : Choice K V E}

/-- Outside of `ensure_chunk_exists` a step leaves the memory alone. -/
theorem allocator_of_outside (found : step dbg s t choice = some s')
    (outside : (s.pc t).ensuring = false) (asks : (s.pc t).Asks) (small : s.len < 2 ^ 32)
    : s'.allocator = s.allocator ∧ (s'.pc t).Asks := by
  have moves := step_moves found
  have none : (s.pc t).allocation = none := by
    generalize s.pc t = before at outside
    cases before <;> first | rfl | cases outside
  obtain ⟨none', asks'⟩ := moves.leads.aside outside asks small
  refine ⟨?_, asks'⟩
  obtain ⟨events, trace, caused⟩ := moves.causes
  cases moves.stores with
  | kept chunks buffers =>
      refine allocator_of_same chunks buffers ?_ moves.others (none'.trans none.symm)
      rw [trace, List.filterMap_append,
        List.filterMap_eq_nil_iff.mpr fun event member => (caused event member).allocation outside,
        List.nil_append]
  | allocated chunk after about =>
      rw [about] at outside
      cases outside
  | installed chunk new after about =>
      rw [about] at outside
      cases outside

/-- A step of the program is one of making, placing or discarding a buffer, or none of these. -/
theorem allocator_of_step (found : step dbg s t choice = some s') (asks : (s.pc t).Asks)
    (small : s.len < 2 ^ 32)
    : Library.WriteOnce.Step s.allocator s'.allocator ∧ (s'.pc t).Asks := by
  have others := (step_moves found).others
  have going {staged : Sys T K V E} {pc : Pc K V E} (same : staged.pc = s.pc)
      (chunks : staged.chunks = s.chunks) (buffers : staged.buffers = s.buffers)
      (events
        : staged.trace.filterMap Event.allocation? = s.trace.filterMap Event.allocation?)
      (mine : pc.allocation = (s.pc t).allocation) (asks' : pc.Asks) :
      Library.WriteOnce.Step s.allocator (staged.goto t pc).allocator
      ∧ ((staged.goto t pc).pc t).Asks := by
    have kept : (staged.goto t pc).allocator = s.allocator :=
      allocator_of_same chunks buffers events
        (fun u self => (pc_goto_of_ne staged t self pc).trans (congrFun same u))
        ((congrArg Pc.allocation (pc_goto_self staged t pc)).trans mine)
    rw [kept, pc_goto_self]
    exact ⟨.stay, asks'⟩
  cases about : s.pc t with
  | ensureAlloc chunk after =>
      rw [about] at asks
      obtain ⟨rfl, bounded⟩ := asks
      simp only [step, about] at found
      cases choice with
      | go =>
          cases found
          refine ⟨?_, by rw [pc_goto_self]; exact ⟨rfl, bounded⟩⟩
          rw [allocator_goto _ rfl]
          exact .make t after.chunk (congrArg Pc.allocation about)
      | allocNull =>
          cases found
          exact going rfl rfl rfl rfl (congrArg Pc.allocation about).symm ⟨rfl, bounded⟩
      | layoutOverflow =>
          cases found
          refine ⟨?_, by rw [pc_unwind_self]; trivial⟩
          have kept : (s.unwind t).allocator = s.allocator := by
            refine allocator_of_same (chunks_unwind s t) ?_ (allocation_unwind s t) others ?_
            · rw [unwind_eq]
              rfl
            · rw [pc_unwind_self, about]
              rfl
          rw [kept]
          exact .stay
      | _ => cases found
  | ensureCas chunk new after =>
      rw [about] at asks
      obtain ⟨rfl, bounded⟩ := asks
      simp only [step, about, installChunk] at found
      have reached := Choice.eq_of_onGo found
      split at reached
      · next absent =>
        subst reached
        cases new with
        | none =>
            refine going rfl ?_ rfl rfl ?_ bounded.resume.2
            · exact Function.update_eq_self_iff.mpr absent.symm
            · rw [about]
              exact bounded.resume.1
        | some buffer =>
            refine ⟨?_, by rw [pc_goto_self]; exact bounded.resume.2⟩
            rw [allocator_goto _ rfl, bounded.resume.1]
            exact .place t after.chunk buffer (congrArg Pc.allocation about) absent
      · subst reached
        exact going rfl rfl rfl rfl (congrArg Pc.allocation about).symm bounded
  | ensureDealloc new after =>
      rw [about] at asks
      have bounded : after.Bounded := asks
      simp only [step, about] at found
      cases Choice.eq_of_onGo found
      cases new with
      | none =>
          refine going rfl rfl rfl rfl ?_ bounded.resume.2
          rw [about]
          exact bounded.resume.1
      | some buffer =>
          refine ⟨?_, by rw [pc_goto_self]; exact bounded.resume.2⟩
          rw [allocator_goto _ rfl, bounded.resume.1]
          exact .discard t after.chunk buffer (congrArg Pc.allocation about)
  | _ =>
      obtain ⟨kept, asks'⟩ := allocator_of_outside found (by rw [about]; rfl) asks small
      rw [kept]
      exact ⟨.stay, asks'⟩

/-- What holds of the memory in every run, whether or not allocation succeeds. -/
structure Buffered (s : Sys T K V E) : Prop where
  inv : Library.WriteOnce.Inv s.allocator
  asks : ∀ t, (s.pc t).Asks
  table : ∀ chunk, (s.chunks chunk).isSome → chunk < CHUNKS
  layouts
    : ∀ t chunk buffer elements, .allocated t chunk buffer elements ∈ s.trace →
        elements = chunkCapacity chunk

omit [Key K] [DecidableEq T] [Fintype T] in
theorem Buffered.withKey : (Sys.withKey T K V E).Buffered where
  inv := .empty
  asks := fun _ => trivial
  table := nofun
  layouts := nofun

omit [Fintype T] in
/-- A buffer is allocated with the layout of its chunk. -/
theorem Moves.layouts (moves : s.Moves dbg t s')
    (before
      : ∀ u chunk buffer elements, .allocated u chunk buffer elements ∈ s.trace →
          elements = chunkCapacity chunk)
    (u : T) (chunk buffer elements : Nat)
    (allocated : .allocated u chunk buffer elements ∈ s'.trace)
    : elements = chunkCapacity chunk := by
  obtain ⟨events, trace, caused⟩ := moves.causes
  rw [trace, List.mem_append] at allocated
  rcases allocated with now | earlier
  · obtain ⟨_, _, layout, _⟩ := caused _ now
    exact layout
  · exact before u chunk buffer elements earlier

theorem Buffered.step (buffered : s.Buffered) (small : s.len < 2 ^ 32)
    (found : step dbg s t choice = some s')
    : s'.Buffered := by
  obtain ⟨memory, asks⟩ := allocator_of_step found (buffered.asks t) small
  refine ⟨buffered.inv.step memory, fun u => ?_, fun chunk present => ?_,
    (step_moves found).layouts buffered.layouts⟩
  · by_cases self : u = t
    · exact self ▸ asks
    · rw [(step_moves found).others u self]
      exact buffered.asks u
  · cases (step_moves found).stores with
    | kept chunks =>
        rw [chunks] at present
        exact buffered.table chunk present
    | allocated _ _ _ reached =>
        rw [reached] at present
        exact buffered.table chunk present
    | installed installed new after about absent reached =>
        rw [reached] at present
        by_cases same : chunk = installed
        · subst chunk
          have mine := buffered.asks t
          rw [about] at mine
          exact mine.1 ▸ mine.2.chunk_lt
        · refine buffered.table chunk ?_
          rwa [← Function.update_of_ne same new s.chunks]

/-- The memory of every run, by induction on the run. -/
theorem buffered_of_run (run : Relation.ReflTransGen (Step dbg) (.withKey T K V E) s)
    : s.Buffered :=
  Library.ReflTransGen.invariant_with WellFormed run (fun _ => wellFormed_of_run) .withKey
    fun _ _ wellFormed _ buffered ⟨_, _, found⟩ => buffered.step wellFormed.len found

-----------------------------------------------------------------------------------------
-- Pointers
-----------------------------------------------------------------------------------------

/-- The pointer that the next step of an activity gets hold of, after its chunk.
`ensure_chunk_exists` returns the one that it loads, or the one that is in place after its
exchange; `wait_for_chunk` returns the one that it loads.
-/
def obtains (s : Sys T K V E) (t : T) : Option (Nat × Nat) :=
  match s.pc t with
  | .ensureLoad chunk _ => (s.chunks chunk).map (chunk, ·)
  | .ensureCas chunk new _ => ((s.chunks chunk).or new).map (chunk, ·)
  | .waitForChunk idx _ => (s.chunks (chunkOf idx)).map (chunkOf idx, ·)
  | _ => none

/-- The pointer to an element: the buffer of its chunk, and the offset in it. -/
def address (s : Sys T K V E) (idx : Nat) : Option (Nat × Nat) :=
  let (chunk, offset) := getLocation idx
  (s.chunks chunk).map (·, offset)

/-- The pointer that an activity gets hold of is in place after its step. -/
theorem chunks_of_obtains {chunk buffer : Nat} (obtains : s.obtains t = some (chunk, buffer))
    (found : step dbg s t choice = some s')
    : s'.chunks chunk = some buffer := by
  have kept : s.chunks chunk = some buffer → s'.chunks chunk = some buffer :=
    (step_moves found).chunks_of_some
  rw [Sys.obtains] at obtains
  cases about : s.pc t with
  | ensureLoad other after =>
      rw [about] at obtains
      obtain ⟨_, there, same⟩ := Option.map_eq_some_iff.mp obtains
      cases same
      exact kept there
  | waitForChunk idx next =>
      rw [about] at obtains
      obtain ⟨_, there, same⟩ := Option.map_eq_some_iff.mp obtains
      cases same
      exact kept there
  | ensureCas other new after =>
      rw [about] at obtains
      obtain ⟨_, there, same⟩ := Option.map_eq_some_iff.mp obtains
      cases same
      rcases Option.or_eq_some_iff.mp there with before | ⟨absent, rfl⟩
      · exact kept before
      · simp only [step, about, installChunk, if_pos absent] at found
        rw [Choice.eq_of_onGo found]
        exact Function.update_self _ _ _
  | _ =>
      rw [about] at obtains
      cases obtains

omit [Key K] [DecidableEq T] [Fintype T] in
theorem address_of_chunks (kept : ∀ chunk buffer, s.chunks chunk = some buffer
    → s'.chunks chunk = some buffer) {idx : Nat} {address : Nat × Nat}
    (there : s.address idx = some address)
    : s'.address idx = some address := by
  obtain ⟨buffer, found, rfl⟩ := Option.map_eq_some_iff.mp there
  exact Option.map_eq_some_iff.mpr ⟨buffer, kept _ _ found, rfl⟩

omit [Key K] [DecidableEq T] [Fintype T] in
theorem mem_dropChunks {buffer elements : Nat}
    : (buffer, elements) ∈ s.dropChunks
      ↔ ∃ chunk < CHUNKS, s.chunks chunk = some buffer ∧ elements = chunkCapacity chunk := by
  rw [dropChunks, List.mem_filterMap]
  constructor
  · rintro ⟨chunk, within, found⟩
    obtain ⟨_, there, same⟩ := Option.map_eq_some_iff.mp found
    cases same
    exact ⟨chunk, List.mem_range.mp within, there, rfl⟩
  · rintro ⟨chunk, within, there, rfl⟩
    exact ⟨chunk, List.mem_range.mpr within, Option.map_eq_some_iff.mpr ⟨buffer, there, rfl⟩⟩

omit [Key K] [DecidableEq T] [Fintype T] in
/-- No buffer is deallocated twice. -/
theorem Buffered.nodup_dropChunks (buffered : s.Buffered)
    : (s.dropChunks.map Prod.fst).Nodup := by
  have pointers : s.dropChunks.map Prod.fst = (List.range CHUNKS).filterMap s.chunks := by
    rw [dropChunks, List.map_filterMap]
    apply List.filterMap_congr
    intro chunk _
    rw [Option.map_map]
    exact Option.map_id'
  rw [pointers]
  apply List.Nodup.filterMap _ List.nodup_range
  intro chunk other buffer found found'
  exact buffered.inv.cell_unique found found'

omit [Key K] [DecidableEq T] [Fintype T] in
/-- A buffer that was made was allocated, with the layout of its chunk. -/
theorem Buffered.allocated_of_made (buffered : s.Buffered) {t : T} {chunk buffer : Nat}
    (made : .made t chunk buffer ∈ s.allocator.life buffer)
    : .allocated t chunk buffer (chunkCapacity chunk) ∈ s.trace := by
  obtain ⟨event, member, about⟩ := List.mem_filterMap.mp (List.mem_of_mem_filter made)
  cases event with
  | allocated actor here token elements =>
      cases about
      exact buffered.layouts t chunk buffer elements member ▸ member
  | installed actor here token => cases token <;> cases about
  | deallocated actor token => cases token <;> cases about
  | _ => cases about

omit [Key K] [DecidableEq T] [Fintype T] in
/-- The published buffers are deallocated, with the layouts that they were allocated with. -/
theorem Buffered.mem_dropChunks_iff (buffered : s.Buffered) {buffer elements : Nat}
    : (buffer, elements) ∈ s.dropChunks
      ↔ ∃ t chunk,
          s.allocator.life buffer = [.placed t chunk buffer, .made t chunk buffer]
          ∧ .allocated t chunk buffer elements ∈ s.trace
          ∧ elements = chunkCapacity chunk := by
  rw [mem_dropChunks]
  constructor
  · rintro ⟨chunk, _, there, rfl⟩
    obtain ⟨_, t, life⟩ := buffered.inv.cells chunk buffer there
    exact ⟨t, chunk, life, buffered.allocated_of_made (by simp [life]), rfl⟩
  · rintro ⟨t, chunk, life, _, rfl⟩
    have there : s.chunks chunk = some buffer := buffered.inv.found_of_placed life
    exact ⟨chunk, buffered.table chunk (Option.isSome_of_eq_some there), there, rfl⟩

end Sys

-----------------------------------------------------------------------------------------
-- One stable buffer for each chunk
-----------------------------------------------------------------------------------------

open Sys in
/-- However activities race for chunks, a chunk pointer that is set stays as it is; whatever
`ensure_chunk_exists` and `wait_for_chunk` return is that pointer, so that elements have
stable addresses. Each buffer is with its allocator, or is published and never deallocated
before the vector is dropped, or was deallocated once by its allocator and never published;
`AtomicVec::drop` deallocates the published ones, once each, with the layouts of their
allocations.
-/
theorem chunk_buffers_stable [DecidableEq T] [Fintype T] {dbg : Bool} {s : Sys T K V E}
    (run : Relation.ReflTransGen (SuppliedStep dbg) (.withKey T K V E) s)
    : (∀ later, Relation.ReflTransGen (SuppliedStep dbg) s later →
        (∀ chunk buffer, s.chunks chunk = some buffer → later.chunks chunk = some buffer)
        ∧ ∀ idx address, s.address idx = some address → later.address idx = some address)
      ∧ (∀ t chunk buffer, s.obtains t = some (chunk, buffer) →
          ∀ choice next, step dbg s t choice = some next →
            ∀ later, Relation.ReflTransGen (SuppliedStep dbg) next later →
              later.chunks chunk = some buffer)
      ∧ (∀ t chunk new after, s.pc t = .ensureCas chunk new after →
          ∃ buffer, s.obtains t = some (chunk, buffer))
      ∧ (∀ buffer < s.buffers, ∃ t chunk,
          ((s.pc t).allocation = some (chunk, buffer)
            ∧ s.allocator.life buffer = [.made t chunk buffer])
          ∨ (s.chunks chunk = some buffer
            ∧ s.allocator.life buffer = [.placed t chunk buffer, .made t chunk buffer])
          ∨ s.allocator.life buffer = [.discarded t buffer, .made t chunk buffer])
      ∧ (s.dropChunks.map Prod.fst).Nodup
      ∧ ∀ buffer elements,
          (buffer, elements) ∈ s.dropChunks
          ↔ ∃ t chunk,
              s.allocator.life buffer = [.placed t chunk buffer, .made t chunk buffer]
              ∧ .allocated t chunk buffer elements ∈ s.trace
              ∧ elements = chunkCapacity chunk := by
  have buffered := buffered_of_run (steps_of_supplied run)
  have stable {before later : Sys T K V E}
      (more : Relation.ReflTransGen (SuppliedStep dbg) before later) (chunk buffer : Nat)
      (found : before.chunks chunk = some buffer) : later.chunks chunk = some buffer :=
    chunks_of_run (steps_of_supplied more) found
  refine ⟨fun later more => ⟨stable more, fun idx address => ?_⟩, ?_, ?_, ?_,
    buffered.nodup_dropChunks, fun buffer elements => buffered.mem_dropChunks_iff⟩
  · exact address_of_chunks (stable more)
  · intro t chunk buffer obtains choice next found later more
    exact stable more chunk buffer (chunks_of_obtains obtains found)
  · intro t chunk new after about
    have ensures := (claimed_of_run run).1.ensures t
    rw [about] at ensures
    obtain ⟨fresh, rfl⟩ := Option.isSome_iff_exists.mp ensures.1
    cases there : s.chunks chunk with
    | none => exact ⟨fresh, by simp [obtains, about, there]⟩
    | some buffer => exact ⟨buffer, by simp [obtains, about, there]⟩
  · intro buffer made
    cases buffered.inv.fates buffer made with
    | pending t chunk holds life => exact ⟨t, chunk, Or.inl ⟨holds, life⟩⟩
    | placed t chunk found life => exact ⟨t, chunk, Or.inr (Or.inl ⟨found, life⟩)⟩
    | discarded t chunk life => exact ⟨t, chunk, Or.inr (Or.inr life)⟩

/-- Two activities allocate the first chunk, and one of them comes late. -/
def raceForChunk : List (Bool × Choice UInt64 Nat Empty) :=
  [true, false].flatMap (Sys.turns · [.call .tryInsertWithKey, .go, .go, .go, .go])
  ++ [(false, .go), (true, .go), (true, .go)]

open Sys in
/-- After that race the first chunk keeps the buffer that was installed first. -/
theorem chunk_buffers_stable_raceForChunk
    : ∃ s : Sys Bool UInt64 Nat Empty,
        s.allocator.life 0 = [.discarded true 0, .made true 0 0]
        ∧ s.dropChunks = [(1, 32)]
        ∧ ∀ later, Relation.ReflTransGen (SuppliedStep false) s later → later.chunks 0 = some 1 := by
  have found : (Sys.runIf (fun _ _ => true) false (.withKey Bool UInt64 Nat Empty)
      raceForChunk).map (fun s => (s.allocator.life 0, s.dropChunks, s.chunks 0))
      = some ([.discarded true 0, .made true 0 0], [(1, 32)], some 1) := by
    decide +kernel
  obtain ⟨s, reached, after⟩ := Option.map_eq_some_iff.mp found
  simp only [Prod.mk.injEq] at after
  obtain ⟨life, dropped, there⟩ := after
  have run : Relation.ReflTransGen (SuppliedStep false) (.withKey Bool UInt64 Nat Empty) s :=
    supplied_of_runIf reached (by decide +kernel)
  exact ⟨s, life, dropped, fun later more =>
    ((chunk_buffers_stable run).1 later more).1 0 1 there⟩

end AtomicSlotMap
