import AtomicSlotMap.Correctness.Reserve

/-! The way of an insertion that runs alone: it takes the first free slot or pushes a new one, calls
its closure, and returns the key of the slot.
-/

namespace AtomicSlotMap

variable {T K V E : Type} [Key K]

namespace Sys

/-- A slot that nobody uses: without references and with an even version. -/
structure Vacant (s : Sys T K V E) (idx : Nat) : Prop where
  unreferenced : (s.slots idx).refCount = 0
  unoccupied : (s.slots idx).version % 2 = 0

omit [Key K] in
/-- An unused slot remains so while nobody changes its words. -/
theorem Vacant.congr {s s' : Sys T K V E} {idx : Nat} (vacant : s.Vacant idx)
    (refCount : (s'.slots idx).refCount = (s.slots idx).refCount)
    (version : (s'.slots idx).version = (s.slots idx).version)
    : s'.Vacant idx :=
  ⟨refCount.trans vacant.unreferenced, by rw [version]; exact vacant.unoccupied⟩

-----------------------------------------------------------------------------------------
-- Taking a slot
-----------------------------------------------------------------------------------------

/-- The state with the slot after the first free one at the head, under the next tag. -/
def popped (s : Sys T K V E) : Sys T K V E :=
  {
    s with
    freeHead :=
      packFreeHead (wrappingAdd (unpackFreeHead s.freeHead).1 1)
        (s.slots (unpackFreeHead s.freeHead).2).nextFree
  }

/-- The stages of an insertion that takes the first free slot. -/
inductive Popping (s₀ : Sys T K V E) (t : T) (top : Nat) : Nat → Sys T K V E → Prop
  | loading {s} (about : s.pc t = .popLoad) (same : s₀.Undisturbed s)
    : Popping s₀ t top 9 s
  | waiting {s} (seen : Nat) (about : s.pc t = .waitForChunk top (.popNext s₀.freeHead seen))
    (same : s₀.Undisturbed s)
    : Popping s₀ t top 8 s
  | following {s} (seen : Nat) (about : s.pc t = .popNext s₀.freeHead seen)
    (same : s₀.Undisturbed s)
    : Popping s₀ t top 7 s
  | exchanging {s} (seen : Nat)
    (about : s.pc t = .popCas s₀.freeHead (s₀.slots top).nextFree seen)
    (same : s₀.Undisturbed s)
    : Popping s₀ t top 6 s
  | assertRefCount {s}
    (about
      : s.pc t = .assertRefCount top (.assertVersion top (.waitForChunk top (.insertVersion top))))
    (taken : s₀.popped.Keeps s₀.slots s)
    : Popping s₀ t top 5 s
  | assertVersion {s}
    (about : s.pc t = .assertVersion top (.waitForChunk top (.insertVersion top)))
    (taken : s₀.popped.Keeps s₀.slots s)
    : Popping s₀ t top 4 s
  | arriving {s} (about : s.pc t = .waitForChunk top (.insertVersion top))
    (taken : s₀.popped.Keeps s₀.slots s)
    : Popping s₀ t top 3 s
  | reading {s} (about : s.pc t = .insertVersion top) (taken : s₀.popped.Keeps s₀.slots s)
    : Popping s₀ t top 2 s
  | done {s} (about : s.pc t = .closure top ((s₀.slots top).version ||| 1))
    (taken : s₀.popped.Keeps s₀.slots s)
    : Popping s₀ t top 0 s

/-- An insertion has come to its end with this key and value. -/
def Inserted (s : Sys T K V E) (t : T) (idx version : Nat) (value : V) : Prop :=
  ∃ stored : Stored V,
    stored.value = value ∧ s.pc t = .ret (.inserted (KeyData.new idx version) stored)

/-- The other slots, the chunks, the length and the free list are as before. -/
structure Beside (s : Sys T K V E) (idx : Nat) (s' : Sys T K V E) : Prop where
  slots : ∀ place ≠ idx, s'.slots place = s.slots place
  chunks : s'.chunks = s.chunks
  len : s'.len = s.len
  freeHead : s'.freeHead = s.freeHead

omit [Key K] in
/-- The head is the slot after the one that was taken. -/
theorem unpackFreeHead_popped (s : Sys T K V E)
    (small : (s.slots (unpackFreeHead s.freeHead).2).nextFree < 2 ^ 32)
    : (unpackFreeHead s.popped.freeHead).2
      = (s.slots (unpackFreeHead s.freeHead).2).nextFree := by
  have tag : wrappingAdd (unpackFreeHead s.freeHead).1 1 < 2 ^ 32 := Nat.mod_lt _ (by omega)
  simp only [popped, unpackFreeHead_pack tag small]

section

variable [DecidableEq T] [Fintype T] {dbg : Bool} {s₀ s s' : Sys T K V E} {t : T}
  {top rank : Nat} {choice : Choice K V E}

omit [Key K] [Fintype T] in
/-- The loop goes on with a head that is not the end of the list. -/
theorem Popping.looped (head : (unpackFreeHead s₀.freeHead).2 = top) (more : top ≠ SENTINEL)
    (same : s₀.Undisturbed s) (seen : Nat)
    : Popping s₀ t top 8 (s.goto t (.popLoop s₀.freeHead seen)) := by
  refine .waiting seen ?_ (same.goto _)
  rw [pc_goto_self, Pc.popLoop, head, if_neg more]

omit [Key K] [Fintype T] in
/-- The exchange puts the next free slot at the head. -/
theorem Popping.taken (dbg : Bool) (head : (unpackFreeHead s₀.freeHead).2 = top)
    (same : s₀.Undisturbed s)
    : ∃ rank ≤ 5, Popping s₀ t top rank
        (s.popExchange dbg t s₀.freeHead (s₀.slots top).nextFree) := by
  have taken (pc : Pc K V E) : s₀.popped.Keeps s₀.slots
      (((s.setFreeHead (packFreeHead (wrappingAdd (unpackFreeHead s₀.freeHead).1 1)
        (s₀.slots top).nextFree)).emit (.popped t top)).goto t pc) := by
    refine ⟨same.slots, same.chunks, same.len, ?_, same.numElems, same.guards, ?_⟩
    · simp only [popped, head]
      rfl
    · intro actor idx data
      rw [popped, ← same.dropped]
      exact ⟨fun member => (List.mem_cons.mp member).resolve_left (by simp),
        List.mem_cons_of_mem _⟩
  simp only [popExchange, head]
  cases dbg with
  | true => exact ⟨5, by omega, .assertRefCount (pc_goto_self _ t _) (taken _)⟩
  | false => exact ⟨3, by omega, .arriving (pc_goto_self _ t _) (taken _)⟩

/-- An insertion that takes the first free slot goes through these stages, by cases on the stage. -/
theorem Popping.turn (popping : Popping s₀ t top rank s)
    (head : (unpackFreeHead s₀.freeHead).2 = top) (more : top ≠ SENTINEL)
    (vacant : s₀.Vacant top) (running : (s.pc t).paused = false)
    (found : step dbg s t choice = some s')
    : ∃ rank', Popping s₀ t top rank' s'
        ∧ (choice = .go → (s₀.chunks (chunkOf top)).isSome → rank' < rank) := by
  cases popping with
  | done about =>
      rw [about] at running
      cases running
  | loading about same =>
      simp only [step, about, same.freeHead] at found
      cases Choice.eq_of_onGo found
      exact ⟨8, .looped head more same _, fun _ _ => by omega⟩
  | waiting seen about same =>
      rcases step_wait about found with ⟨_, rfl⟩ | ⟨absent, rfl⟩
      · exact ⟨7, .following seen (pc_goto_self _ t _) (same.goto _), fun _ _ => by omega⟩
      · rw [same.chunks] at absent
        exact ⟨8, .waiting seen about same, fun _ present => absurd present absent⟩
  | following seen about same =>
      simp only [step, about, head, same.slots] at found
      cases Choice.eq_of_onGo found
      exact ⟨6, .exchanging seen (pc_goto_self _ t _) (same.goto _), fun _ _ => by omega⟩
  | exchanging seen about same =>
      simp only [step, about, same.freeHead, BEq.rfl] at found
      cases choice with
      | go =>
          cases found
          obtain ⟨rank', less, stage⟩ := Popping.taken (t := t) dbg head same
          exact ⟨rank', stage, fun _ _ => by omega⟩
      | spurious =>
          cases found
          exact ⟨8, .looped head more same _, fun going => by cases going⟩
      | _ => cases found
  | assertRefCount about taken =>
      cases step_assertRefCount about (by rw [taken.slots]; exact vacant.unreferenced) found
      exact ⟨4, .assertVersion (pc_goto_self _ t _) (taken.goto _), fun _ _ => by omega⟩
  | assertVersion about taken =>
      cases step_assertVersion about (by rw [taken.slots]; exact vacant.unoccupied) found
      exact ⟨3, .arriving (pc_goto_self _ t _) (taken.goto _), fun _ _ => by omega⟩
  | arriving about taken =>
      rcases step_wait about found with ⟨_, rfl⟩ | ⟨absent, rfl⟩
      · exact ⟨2, .reading (pc_goto_self _ t _) (taken.goto _), fun _ _ => by omega⟩
      · rw [taken.chunks] at absent
        exact ⟨3, .arriving about taken, fun _ present => absurd present absent⟩
  | reading about taken =>
      simp only [step, about, taken.slots] at found
      cases Choice.eq_of_onGo found
      exact ⟨0, .done (pc_goto_self _ t _) (taken.goto _), fun _ _ => by omega⟩

theorem Popping.outline (head : (unpackFreeHead s₀.freeHead).2 = top) (more : top ≠ SENTINEL)
    (vacant : s₀.Vacant top)
    : Outline dbg t (s₀.chunks (chunkOf top)).isSome (Popping s₀ t top) where
  running := by
    intro rank s popping
    cases popping with
    | loading about | waiting _ about | following _ about | exchanging _ about
    | assertRefCount about | assertVersion about | arriving about | reading about =>
        rw [about]
        rfl
  turn := fun _ _ _ _ popping running _ found => popping.turn head more vacant running found

omit [Key K] [DecidableEq T] [Fintype T] in
/-- The last stage is the closure. -/
theorem Popping.offers (popping : Popping s₀ t top 0 s)
    : s.pc t = .closure top ((s₀.slots top).version ||| 1) ∧ s₀.popped.Keeps s₀.slots s := by
  cases popping with
  | done about taken => exact ⟨about, taken⟩

/-- An insertion starts by reading the head. -/
theorem exists_popLoad (dbg : Bool) (rests : s.pc t = .idle)
    : ∃ called, step dbg s t (.call .tryInsertWithKey) = some called
        ∧ called.pc t = .popLoad
        ∧ s.Undisturbed called := by
  refine ⟨(s.begin t .tryInsertWithKey).goto t .popLoad, ?_, pc_goto_self _ t _, ?_⟩
  · simp only [step, rests]
    rfl
  · exact ((Undisturbed.refl s).begin _).goto _

/-- An insertion into a map without free slots comes to its closure with a new one. -/
theorem eventually_grown (about : s.pc t = .popLoad)
    (empty : (unpackFreeHead s.freeHead).2 = SENTINEL)
    : Library.Eventually (Turn dbg t)
        (fun s' =>
          s'.pc t = .closure s.len 1
          ∧ (s'.chunks (chunkOf s.len)).isSome
          ∧ ((s.chunks (chunkOf s.len)).isSome → s'.chunks = s.chunks)
          ∧ (∀ chunk ≠ chunkOf s.len, s'.chunks chunk = s.chunks chunk)
          ∧ { s with len := wrappingAdd s.len 1, chunks := s'.chunks }.Keeps s.slots s')
        s := by
  let loaded : Sys T K V E := s.goto t .pushZeroed
  let pushed : Sys T K V E := loaded.pushZeroed t
  have pushing : loaded.pc t = .pushZeroed := pc_goto_self _ t _
  have first : step dbg s t .go = some loaded := by
    simp only [step, about, Pc.popLoop, empty, ↓reduceIte]
    rfl
  have second : step dbg loaded t .go = some pushed := by
    simp only [step, pushing]
    rfl
  have third : pushed.pc t = .ensureLoad (chunkOf s.len) (.pushed s.len) := pc_goto_self _ t _
  refine eventually_of_go (by rw [about]; rfl) first ?_
  refine eventually_of_go (by rw [pushing]; rfl) second ?_
  refine (eventually_ensure third).mono fun s' ensured => ?_
  have words := ensured.words
  refine ⟨ensured.resumed, ensured.present, ensured.kept, ensured.others, words.slots, rfl,
    words.len, words.freeHead, words.numElems, words.guards, fun actor idx data => ?_⟩
  rw [words.dropped]
  exact ⟨fun member => (List.mem_cons.mp member).resolve_left (by simp), List.mem_cons_of_mem _⟩

omit [Key K] [DecidableEq T] [Fintype T] in
theorem Beside.trans {idx : Nat} (first : s₀.Beside idx s) (second : s.Beside idx s')
    : s₀.Beside idx s' where
  slots place apart := (second.slots place apart).trans (first.slots place apart)
  chunks := second.chunks.trans first.chunks
  len := second.len.trans first.len
  freeHead := second.freeHead.trans first.freeHead

omit [Key K] [DecidableEq T] [Fintype T] in
theorem Beside.of_update {idx : Nat} {slot : Slot V}
    (slots : s'.slots = Function.update s.slots idx slot) (chunks : s'.chunks = s.chunks)
    (len : s'.len = s.len) (freeHead : s'.freeHead = s.freeHead)
    : s.Beside idx s' :=
  ⟨fun _ apart => by rw [slots, Function.update_of_ne apart], chunks, len, freeHead⟩

/-- `debug_assert_exclusively_owned` lets an unused slot pass. -/
theorem eventually_owned {Goal : Sys T K V E → Prop} {idx : Nat} {next : Pc K V E}
    (about : s.pc t = .exclusivelyOwned dbg idx next) (vacant : dbg = true → s.Vacant idx)
    (later : ∀ s', s'.pc t = next → s.Undisturbed s' → Library.Eventually (Turn dbg t) Goal s')
    : Library.Eventually (Turn dbg t) Goal s := by
  cases dbg with
  | false => exact later s about (Undisturbed.refl s)
  | true =>
      let counted : Sys T K V E := s.goto t (.assertVersion idx next)
      have asserting : counted.pc t = .assertVersion idx next := pc_goto_self _ t _
      have start : s.pc t = .assertRefCount idx (.assertVersion idx next) := about
      have first : step true s t .go = some counted := by
        simp only [step, start, if_pos (vacant rfl).unreferenced]
        rfl
      have second : step true counted t .go = some (counted.goto t next) := by
        have even : (counted.slots idx).version % 2 = 0 := (vacant rfl).unoccupied
        simp only [step, asserting, if_pos even]
        rfl
      refine eventually_of_go (by rw [start]; rfl) first ?_
      refine eventually_of_go (by rw [asserting]; rfl) second ?_
      exact later _ (pc_goto_self _ t _) (((Undisturbed.refl s).goto _).goto _)

/-- The last accesses of an insertion: its value, the count, the version and the counter. -/
theorem eventually_written {idx version : Nat} {value : V}
    (about : s.pc t = .insertWrite idx version value)
    : Library.Eventually (Turn dbg t)
        (fun s' => s'.Inserted t idx version value ∧ s.Beside idx s') s := by
  let stored : Stored V := ⟨s.trace.length, value⟩
  let written : Sys T K V E := s.writeValue t idx version value
  let armed : Sys T K V E := written.storeRefCount t idx version stored
  let published : Sys T K V E := armed.publish t idx version stored
  have arming : written.pc t = .insertRefCount idx version stored := pc_goto_self _ t _
  have publishing : armed.pc t = .insertPublish idx version stored := pc_goto_self _ t _
  have counting : published.pc t = .insertCount (KeyData.new idx version) stored :=
    pc_goto_self _ t _
  have first : step dbg s t .go = some written := by
    simp only [step, about]
    rfl
  have second : step dbg written t .go = some armed := by
    simp only [step, arming]
    rfl
  have third : step dbg armed t .go = some published := by
    simp only [step, publishing]
    rfl
  have fourth : ∃ counted, step dbg published t .go = some counted
      ∧ counted.pc t = .ret (.inserted (KeyData.new idx version) stored)
      ∧ published.Beside idx counted := by
    simp only [step, counting]
    exact ⟨_, rfl, pc_goto_self _ t _, ⟨fun _ _ => rfl, rfl, rfl, rfl⟩⟩
  obtain ⟨counted, fourth, answered, noted⟩ := fourth
  have wrote : s.Beside idx written := .of_update rfl rfl rfl rfl
  have stores : written.Beside idx armed := .of_update rfl rfl rfl rfl
  have publishes : armed.Beside idx published := by
    simp only [published, publish]
    rw [answer_eq]
    exact .of_update rfl rfl rfl rfl
  have beside : s.Beside idx counted := ((wrote.trans stores).trans publishes).trans noted
  refine eventually_of_go (by rw [about]; rfl) first ?_
  refine eventually_of_go (by rw [arming]; rfl) second ?_
  refine eventually_of_go (by rw [publishing]; rfl) third ?_
  exact eventually_of_go (by rw [counting]; rfl) fourth (.now ⟨⟨stored, rfl, answered⟩, beside⟩)

/-- A closure that succeeds makes its insertion return the key it was called with. -/
theorem exists_inserted {idx version : Nat} (dbg : Bool) (about : s.pc t = .closure idx version)
    (vacant : dbg = true → s.Vacant idx) (present : (s.chunks (chunkOf idx)).isSome) (value : V)
    : ∃ going, step dbg s t (.closureOk value) = some going
        ∧ Library.Eventually (Turn dbg t)
            (fun s' => s'.Inserted t idx version value ∧ s.Beside idx s') going := by
  let next : Pc K V E := .exclusivelyOwned dbg idx (.insertWrite idx version value)
  let waiting : Sys T K V E := s.goto t (.waitForChunk idx next)
  have waits : waiting.pc t = .waitForChunk idx next := pc_goto_self _ t _
  have arrives : step dbg waiting t .go = some (waiting.goto t next) := by
    have here : (waiting.chunks (chunkOf idx)).isSome := present
    simp only [step, waits, if_pos here]
    rfl
  refine ⟨waiting, by simp only [step, about]; rfl, ?_⟩
  refine eventually_of_go (by rw [waits]; rfl) arrives ?_
  refine eventually_owned (pc_goto_self _ t _) (fun asserts => (vacant asserts).congr rfl rfl) ?_
  intro writes writing same
  have before : s.Beside idx writes :=
    ⟨fun place _ => by rw [same.slots]; rfl, same.chunks, same.len, same.freeHead⟩
  exact (eventually_written writing).mono fun s' reached =>
    ⟨reached.1, before.trans reached.2⟩

end

end Sys

end AtomicSlotMap
