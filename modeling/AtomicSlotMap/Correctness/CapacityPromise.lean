import AtomicSlotMap.Correctness.FailedInsertion
import AtomicSlotMap.Correctness.StorageBound

/-! The promise of the capacity: insertions that fit into it allocate nothing. What has to fit are
the slots in use, not the elements, since a slot stays in use while guards on its removed value
are alive.
-/

namespace AtomicSlotMap

variable {T K V E : Type} [Key K]

namespace Sys

section

variable [DecidableEq T] [Fintype T]

/-- An activity inserts a value: it takes a slot, its closure yields the value at once, and it
returns.
-/
def Inserts (dbg : Bool) (t : T) (s s' : Sys T K V E) : Prop :=
  ∃ value offered inserted,
    Ends dbg t (.call .tryInsertWithKey) s offered
    ∧ Ends dbg t (.closureOk value) offered inserted
    ∧ step dbg inserted t .go = some s'

/-- An activity inserts this many values in a row. -/
inductive InsertsInRow (dbg : Bool) (t : T) : Nat → Sys T K V E → Sys T K V E → Prop
  | none {s} : InsertsInRow dbg t 0 s s
  | more {count s middle s'} (first : Inserts dbg t s middle)
    (rest : InsertsInRow dbg t count middle s')
    : InsertsInRow dbg t (count + 1) s s'

end

/-- The slots in use that are not occupied, but still referenced: those of removed values with
guards on them.
-/
def pinned (s : Sys T K V E) : Nat :=
  ((Finset.range s.len).filter fun idx =>
    (s.slots idx).version % 2 = 0 ∧ 0 < (s.slots idx).refCount).card

-----------------------------------------------------------------------------------------
-- The stock of slots
-----------------------------------------------------------------------------------------

/-- What insertions find: the free slots, all unused, and the memory of the vector. -/
structure Stocked (s : Sys T K V E) (free : List Nat) : Prop where
  chain : s.FreeList free
  nodup : free.Nodup
  within : ∀ idx ∈ free, idx < s.len
  vacant : ∀ idx ∈ free, s.Vacant idx
  beyond : ∀ idx, s.len ≤ idx → s.Vacant idx
  housed : ∀ idx < s.len, (s.chunks (chunkOf idx)).isSome
  bound : s.len < 2 ^ 32

section

variable [DecidableEq T] [Fintype T] {dbg : Bool} {s s' offered : Sys T K V E} {t : T}
  {free : List Nat} {idx count : Nat}

omit [Key K] [DecidableEq T] [Fintype T] in
theorem Stocked.congr (stocked : s.Stocked free) (same : s.Undisturbed s') : s'.Stocked free where
  chain := by
    rw [FreeList, same.slots, same.freeHead]
    exact stocked.chain
  nodup := stocked.nodup
  within := by
    rw [same.len]
    exact stocked.within
  vacant idx member := (stocked.vacant idx member).congr (by rw [same.slots]) (by rw [same.slots])
  beyond idx most :=
    (stocked.beyond idx (same.len ▸ most)).congr (by rw [same.slots]) (by rw [same.slots])
  housed := by
    rw [same.len, same.chunks]
    exact stocked.housed
  bound := by
    rw [same.len]
    exact stocked.bound

omit [Key K] [DecidableEq T] [Fintype T] in
/-- A change to a slot that is not free leaves the stock as it is. -/
theorem Stocked.beside (stocked : s.Stocked free) (beside : s.Beside idx s') (apart : idx ∉ free)
    (within : idx < s.len)
    : s'.Stocked free where
  chain := by
    rw [FreeList, beside.freeHead]
    refine stocked.chain.congr fun cell member => ?_
    rw [beside.slots cell fun same => apart (same ▸ member)]
  nodup := stocked.nodup
  within := by
    rw [beside.len]
    exact stocked.within
  vacant place member := by
    have same := beside.slots place fun same => apart (same ▸ member)
    exact (stocked.vacant place member).congr (by rw [same]) (by rw [same])
  beyond place most := by
    rw [beside.len] at most
    have same := beside.slots place (by omega)
    exact (stocked.beyond place most).congr (by rw [same]) (by rw [same])
  housed := by
    rw [beside.len, beside.chunks]
    exact stocked.housed
  bound := by
    rw [beside.len]
    exact stocked.bound

/-- An insertion has taken a slot out of the stock: the first free one, or else a new one with its
chunk.
-/
structure Taken (s : Sys T K V E) (free : List Nat) (t : T) (offered : Sys T K V E) : Prop where
  offers
    : ∃ idx version,
        offered.pc t = .closure idx version
        ∧ offered.Vacant idx
        ∧ idx ∉ free.tail
        ∧ idx < offered.len
  stocked : offered.Stocked free.tail
  len : offered.len = s.len + (1 - free.length)
  chunks
    : ∀ chunk, (offered.chunks chunk).isSome
        ↔ (s.chunks chunk).isSome ∨ ∃ idx < offered.len, chunkOf idx = chunk

omit [Key K] [DecidableEq T] [Fintype T] in
/-- The first free slot is taken. -/
theorem Stocked.popped {top : Nat} {rest : List Nat} (stocked : s.Stocked (top :: rest))
    (about : offered.pc t = .closure top ((s.slots top).version ||| 1))
    (head : (unpackFreeHead s.freeHead).2 = top) (taken : s.popped.Keeps s.slots offered)
    : s.Taken (top :: rest) t offered := by
  obtain ⟨_, more, tail⟩ := stocked.chain
  rw [head] at tail
  have nodup := List.nodup_cons.mp stocked.nodup
  have within : top < s.len := stocked.within top List.mem_cons_self
  have bound := stocked.bound
  have small : (s.slots top).nextFree < 2 ^ 32 := by
    rcases tail.head_eq_or_mem with last | member
    · have ends : (s.slots top).nextFree = SENTINEL := last
      rw [ends]
      decide
    · exact Nat.lt_trans (stocked.within _ (List.mem_cons_of_mem _ member)) bound
  have len : offered.len = s.len := taken.len
  have chunks : offered.chunks = s.chunks := taken.chunks
  refine ⟨⟨top, _, about, ?_, nodup.1, by omega⟩, ?_, by rw [len, List.length_cons]; omega,
    fun chunk => ?_⟩
  · exact (stocked.vacant top List.mem_cons_self).congr (by rw [taken.slots])
      (by rw [taken.slots])
  · refine ⟨?_, nodup.2, fun idx member => ?_, fun idx member => ?_, fun idx most => ?_,
      fun idx less => ?_, len ▸ bound⟩
    · rw [FreeList, taken.slots, taken.freeHead, unpackFreeHead_popped s (by rwa [head]), head]
      exact tail
    · rw [len]
      exact stocked.within idx (List.mem_cons_of_mem _ member)
    · exact (stocked.vacant idx (List.mem_cons_of_mem _ member)).congr (by rw [taken.slots])
        (by rw [taken.slots])
    · rw [len] at most
      exact (stocked.beyond idx most).congr (by rw [taken.slots]) (by rw [taken.slots])
    · rw [len] at less
      rw [chunks]
      exact stocked.housed idx less
  · rw [chunks, len]
    refine ⟨Or.inl, ?_⟩
    rintro (present | ⟨idx, less, rfl⟩)
    · exact present
    · exact stocked.housed idx less

omit [Key K] [DecidableEq T] [Fintype T] in
/-- A new slot is taken, with its chunk. -/
theorem Stocked.grown (stocked : s.Stocked []) (room : s.len + 1 < 2 ^ 32)
    (about : offered.pc t = .closure s.len 1)
    (present : (offered.chunks (chunkOf s.len)).isSome)
    (others : ∀ chunk ≠ chunkOf s.len, offered.chunks chunk = s.chunks chunk)
    (words
      : { s with len := wrappingAdd s.len 1, chunks := offered.chunks }.Keeps s.slots offered)
    : s.Taken [] t offered := by
  have len : offered.len = s.len + 1 := words.len.trans (Nat.mod_eq_of_lt room)
  have more (chunk : Nat) (found : (s.chunks chunk).isSome) : (offered.chunks chunk).isSome := by
    by_cases same : chunk = chunkOf s.len
    · exact same ▸ present
    · rw [others chunk same]
      exact found
  have housed (idx : Nat) (less : idx < offered.len) : (offered.chunks (chunkOf idx)).isSome := by
    rw [len] at less
    rcases Nat.lt_succ_iff_lt_or_eq.mp less with before | rfl
    · exact more _ (stocked.housed idx before)
    · exact present
  refine ⟨⟨s.len, 1, about, ?_, List.not_mem_nil, by omega⟩, ?_, len, fun chunk => ?_⟩
  · exact (stocked.beyond s.len le_rfl).congr (by rw [words.slots]) (by rw [words.slots])
  · refine ⟨?_, .nil, nofun, nofun, fun idx most => ?_, housed, by omega⟩
    · rw [FreeList, words.slots, words.freeHead]
      exact stocked.chain
    · exact (stocked.beyond idx (by omega)).congr (by rw [words.slots]) (by rw [words.slots])
  · refine ⟨fun found => ?_, ?_⟩
    · by_cases same : chunk = chunkOf s.len
      · exact Or.inr ⟨s.len, by omega, same.symm⟩
      · rw [others chunk same] at found
        exact Or.inl found
    · rintro (found | ⟨idx, less, rfl⟩)
      · exact more chunk found
      · exact housed idx less

/-- An insertion takes a slot, and it can. -/
theorem Stocked.taken (dbg : Bool) (stocked : s.Stocked free) (rests : s.pc t = .idle)
    (room : s.len + (1 - free.length) < 2 ^ 32)
    : (∀ offered, Ends dbg t (.call .tryInsertWithKey) s offered → s.Taken free t offered)
      ∧ ∃ offered, Ends dbg t (.call .tryInsertWithKey) s offered := by
  obtain ⟨called, found, loads, same⟩ := exists_popLoad (t := t) dbg rests
  have stocked' := stocked.congr same
  have pauses (offered : Sys T K V E) (taken : called.Taken free t offered) :
      (offered.pc t).paused = true := by
    obtain ⟨idx, version, about, _⟩ := taken.offers
    rw [about]
    rfl
  have ofCalled (offered : Sys T K V E) (taken : called.Taken free t offered) :
      s.Taken free t offered := by
    refine ⟨taken.offers, taken.stocked, same.len ▸ taken.len, ?_⟩
    rw [← same.chunks]
    exact taken.chunks
  cases free with
  | nil =>
      have eventually : Library.Eventually (Turn dbg t) (called.Taken [] t) called := by
        refine (eventually_grown loads stocked'.chain).mono ?_
        rintro offered ⟨about, present, _, others, words⟩
        exact stocked'.grown (by rw [same.len]; exact room) about present others words
      obtain ⟨offered, turns, taken⟩ := eventually.exists_run
      refine ⟨fun offered ends => ?_, offered, called, found, turns, pauses offered taken⟩
      exact ofCalled offered (ends.reached found eventually pauses)
  | cons top rest =>
      obtain ⟨head, more, _⟩ := stocked'.chain
      have vacant := stocked'.vacant top List.mem_cons_self
      have start : Popping called t top 9 called := .loading loads (Undisturbed.refl called)
      have outline : Outline dbg t _ (Popping called t top) :=
        Popping.outline head (head ▸ more) vacant
      have last (offered : Sys T K V E) (popping : Popping called t top 0 offered) :
          called.Taken (top :: rest) t offered :=
        stocked'.popped popping.offers.1 head popping.offers.2
      refine ⟨fun offered ends => ?_, ?_⟩
      · obtain ⟨_, found', turns, paused⟩ := ends
        cases found.symm.trans found'
        exact ofCalled offered (last offered (outline.final start turns paused))
      · have present := stocked'.housed top (stocked'.within top List.mem_cons_self)
        obtain ⟨offered, turns, popping⟩ := (outline.eventually present start).exists_run
        refine ⟨offered, called, found, ?_, pauses offered (last offered popping)⟩
        exact Relation.ReflTransGen.mono (fun _ _ => GoTurn.turn) _ _ turns

/-- A return leaves the map as it is. -/
theorem undisturbed_of_return (dbg : Bool) {res : Res K V E} (about : s.pc t = .ret res)
    : ∃ s', step dbg s t .go = some s' ∧ s.Undisturbed s' ∧ s'.pc t = res.rest := by
  refine ⟨(s.finish t (.ret · res)).goto t res.rest, ?_, ?_, pc_goto_self _ t _⟩
  · simp only [step, about]
    rfl
  · rw [finish_eq]
    exact ⟨rfl, rfl, rfl, rfl, rfl, rfl, fun _ _ _ => Iff.rfl⟩

/-- What this many insertions do to the stock. -/
structure Supplied (s : Sys T K V E) (free : List Nat) (t : T) (count : Nat) (s' : Sys T K V E)
    : Prop where
  rests : s'.pc t = .idle
  stocked : s'.Stocked (free.drop count)
  len : s'.len = s.len + (count - free.length)
  chunks
    : ∀ chunk, (s'.chunks chunk).isSome
        ↔ (s.chunks chunk).isSome ∨ ∃ idx < s'.len, chunkOf idx = chunk

/-- An insertion takes one slot out of the stock, and it comes to its end. -/
theorem Stocked.inserts (dbg : Bool) (stocked : s.Stocked free) (rests : s.pc t = .idle)
    (room : s.len + (1 - free.length) < 2 ^ 32)
    : (∀ s', Inserts dbg t s s' → s.Supplied free t 1 s')
      ∧ ∀ _ : V, ∃ s', Inserts dbg t s s' := by
  obtain ⟨takes, offered₀, ends₀⟩ := stocked.taken dbg rests room
  have pauses {idx version : Nat} {value : V} {before after : Sys T K V E}
      (reached : after.Inserted t idx version value ∧ before.Beside idx after) :
      (after.pc t).paused = true := by
    obtain ⟨⟨stored, _, returned⟩, _⟩ := reached
    rw [returned]
    rfl
  refine ⟨fun s' inserts => ?_, fun value => ?_⟩
  · obtain ⟨value, offered, inserted, taking, inserting, returning⟩ := inserts
    have taken := takes offered taking
    obtain ⟨idx, version, about, vacant, apart, within⟩ := taken.offers
    obtain ⟨going, found, eventually⟩ :=
      exists_inserted dbg about (fun _ => vacant) (taken.stocked.housed idx within) value
    obtain ⟨⟨stored, _, returned⟩, beside⟩ :=
      inserting.reached found eventually fun _ => pauses
    obtain ⟨last, found', same, rests'⟩ := undisturbed_of_return dbg returned
    cases returning.symm.trans found'
    have len : s'.len = offered.len := same.len.trans beside.len
    refine ⟨rests', ?_, len.trans taken.len, ?_⟩
    · rw [List.drop_one]
      exact (taken.stocked.beside beside apart within).congr same
    · rw [len, same.chunks, beside.chunks]
      exact taken.chunks
  · obtain ⟨idx, version, about, vacant, apart, within⟩ := (takes offered₀ ends₀).offers
    obtain ⟨going, found, eventually⟩ :=
      exists_inserted dbg about (fun _ => vacant)
        ((takes offered₀ ends₀).stocked.housed idx within) value
    obtain ⟨inserted, turns, reached⟩ := eventually.exists_run
    obtain ⟨⟨stored, _, returned⟩, _⟩ := reached
    obtain ⟨last, found', _⟩ := undisturbed_of_return dbg returned
    exact ⟨last, value, offered₀, inserted, ends₀,
      ⟨going, found, turns, by rw [returned]; rfl⟩, found'⟩

/-- Insertions in a row take their slots out of the stock, by induction on their number. -/
theorem Stocked.row (stocked : s.Stocked free) (rests : s.pc t = .idle)
    (row : InsertsInRow dbg t count s s') (room : s.len + (count - free.length) < 2 ^ 32)
    : s.Supplied free t count s' := by
  induction row generalizing free with
  | none =>
      refine ⟨rests, stocked, by omega, fun chunk => ⟨Or.inl, ?_⟩⟩
      rintro (present | ⟨idx, less, rfl⟩)
      · exact present
      · exact stocked.housed idx less
  | @more count s middle s' first rest ih =>
      have one := (stocked.inserts dbg rests (by omega)).1 middle first
      have len := one.len
      have shorter : (free.drop 1).length = free.length - 1 := List.length_drop
      have later := ih one.stocked one.rests (by omega)
      have len' := later.len
      refine ⟨later.rests, ?_, by omega, fun chunk => ?_⟩
      · have stocked' := later.stocked
        rw [List.drop_drop] at stocked'
        rwa [Nat.add_comm]
      · rw [later.chunks, one.chunks]
        constructor
        · rintro ((present | ⟨idx, less, housed⟩) | within)
          · exact Or.inl present
          · exact Or.inr ⟨idx, by omega, housed⟩
          · exact Or.inr within
        · rintro (present | within)
          · exact Or.inl (Or.inl present)
          · exact Or.inr within

/-- If there are indices for them, insertions in a row come to their end, by induction on their
number.
-/
theorem Stocked.exists_row (dbg : Bool) (stocked : s.Stocked free) (rests : s.pc t = .idle)
    (value : V) (room : s.len + (count - free.length) < 2 ^ 32)
    : ∃ s', InsertsInRow dbg t count s s' := by
  induction count generalizing s free with
  | zero => exact ⟨s, .none⟩
  | succ count ih =>
      obtain ⟨takes, exist⟩ := stocked.inserts dbg rests (by omega)
      obtain ⟨middle, first⟩ := exist value
      have one := takes middle first
      have len := one.len
      have shorter : (free.drop 1).length = free.length - 1 := List.length_drop
      obtain ⟨s', rest⟩ := ih one.stocked one.rests (by omega)
      exact ⟨s', .more first rest⟩

omit [Key K] [DecidableEq T] [Fintype T] in
/-- The chunks are there up to a first missing one, by induction on the number of chunks. -/
theorem exists_first_missing (s : Sys T K V E) (chunks : Nat)
    : ∃ first ≤ chunks,
        (∀ lower < first, (s.chunks lower).isSome)
        ∧ (first < chunks → s.chunks first = none) := by
  induction chunks with
  | zero => exact ⟨0, le_rfl, nofun, nofun⟩
  | succ chunks ih =>
      obtain ⟨first, most, present, missing⟩ := ih
      rcases Nat.lt_or_eq_of_le most with less | rfl
      · exact ⟨first, by omega, present, fun _ => missing less⟩
      · cases found : s.chunks first with
        | none => exact ⟨first, by omega, present, fun _ => found⟩
        | some buffer =>
            refine ⟨first + 1, le_rfl, fun lower less => ?_, fun less => by omega⟩
            rcases Nat.lt_succ_iff_lt_or_eq.mp less with before | rfl
            · exact present lower before
            · exact Option.isSome_of_eq_some found

omit [Key K] [DecidableEq T] [Fintype T] in
/-- The capacity is that of the chunks before the first missing one. -/
theorem exists_capacity (s : Sys T K V E)
    : ∃ first ≤ CHUNKS,
        s.capacity = capacityBelow first
        ∧ (∀ lower < first, (s.chunks lower).isSome)
        ∧ (first < CHUNKS → s.chunks first = none) := by
  obtain ⟨first, most, present, missing⟩ := s.exists_first_missing CHUNKS
  exact ⟨first, most, capacity_eq most present missing, present, missing⟩

/-- More indices than there are in the words do not fit into the chunks but the last. -/
theorem capacityBelow_lt_word {chunk : Nat} (less : chunk < CHUNKS)
    : capacityBelow chunk + 1 < 2 ^ 32 := by
  have most := capacityBelow_mono (show chunk ≤ 14 from Nat.le_of_lt_succ less)
  have total : capacityBelow 14 = 2863311520 := by decide
  omega

/-- The first index after the chunks before this one is in this one. -/
theorem chunkOf_capacityBelow {chunk : Nat} (less : chunk < CHUNKS)
    : chunkOf (capacityBelow chunk) = chunk := by
  have small := capacityBelow_lt_word less
  refine chunkOf_eq (by omega) le_rfl ?_
  rw [capacityBelow_succ, chunkCapacity_eq]
  exact Nat.lt_add_of_pos_right (Nat.mul_pos (by decide) (Nat.pow_pos (by decide)))

omit [Key K] [DecidableEq T] [Fintype T] in
/-- A vector whose indices all have their chunks fits into the capacity. -/
theorem len_le_capacity (housed : ∀ idx < s.len, (s.chunks (chunkOf idx)).isSome)
    (bound : s.len < 2 ^ 32)
    : s.len ≤ s.capacity := by
  obtain ⟨first, most, capacity, present, missing⟩ := s.exists_capacity
  rw [capacity]
  by_contra beyond
  rcases Nat.lt_or_eq_of_le most with less | rfl
  · have found := housed (capacityBelow first) (by omega)
    rw [chunkOf_capacityBelow less, missing less] at found
    cases found
  · have total : capacityBelow CHUNKS = 11453246112 := by decide
    omega

omit [Key K] [DecidableEq T] [Fintype T] in
theorem Stocked.len_le_capacity (stocked : s.Stocked free) : s.len ≤ s.capacity :=
  Sys.len_le_capacity stocked.housed stocked.bound

omit [Key K] [DecidableEq T] [Fintype T] in
/-- Chunks that stay keep the capacity. -/
theorem capacity_mono
    (more : ∀ chunk, (s.chunks chunk).isSome → (s'.chunks chunk).isSome)
    : s.capacity ≤ s'.capacity := by
  obtain ⟨first, most, capacity, present, _⟩ := s.exists_capacity
  rw [capacity]
  exact capacityBelow_le_capacity most fun lower less => more lower (present lower less)

omit [Key K] [DecidableEq T] [Fintype T] in
/-- Insertions that fit into the capacity keep it. -/
theorem Supplied.kept (supplied : s.Supplied free t count s') (fits : s'.len ≤ s.capacity)
    : s'.capacity = s.capacity := by
  obtain ⟨first, most, capacity, present, missing⟩ := s.exists_capacity
  rw [capacity]
  refine capacity_eq most (fun lower less => ?_) fun less => ?_
  · exact (supplied.chunks lower).mpr (Or.inl (present lower less))
  · refine Option.not_isSome_iff_eq_none.mp fun found => ?_
    rcases (supplied.chunks first).mp found with before | ⟨idx, within, housed⟩
    · rw [missing less] at before
      cases before
    · have small := supplied.stocked.bound
      have start := (chunkOf_bounds (show idx < 2 ^ 32 by omega)).1
      rw [housed] at start
      omega

omit [Key K] [DecidableEq T] [Fintype T] in
/-- Insertions that do not fit into the capacity increase it, while a chunk is missing. -/
theorem Supplied.outgrown (supplied : s.Supplied free t count s') (beyond : s.capacity < s'.len)
    (missing : ∃ chunk < CHUNKS, s.chunks chunk = none)
    : s.capacity < s'.capacity := by
  obtain ⟨first, most, capacity, present, _⟩ := s.exists_capacity
  have less : first < CHUNKS := by
    obtain ⟨chunk, within, none⟩ := missing
    by_contra all
    have found := present chunk (by omega)
    rw [none] at found
    cases found
  have grown : ∀ lower < first + 1, (s'.chunks lower).isSome := by
    intro lower before
    refine (supplied.chunks lower).mpr ?_
    rcases Nat.lt_succ_iff_lt_or_eq.mp before with earlier | rfl
    · exact Or.inl (present lower earlier)
    · exact Or.inr ⟨s.capacity, beyond, by rw [capacity, chunkOf_capacityBelow less]⟩
  have enough := capacityBelow_le_capacity less grown
  have positive : 0 < chunkCapacity first := by
    rw [chunkCapacity_eq]
    exact Nat.mul_pos (by decide) (Nat.pow_pos (by decide))
  rw [capacityBelow_succ] at enough
  omega

-----------------------------------------------------------------------------------------
-- Runs of insertions
-----------------------------------------------------------------------------------------

theorem Ends.run {choice : Choice K V E} (ends : Ends dbg t choice s s')
    (supplies : choice.supplies = true)
    : Relation.ReflTransGen (SuppliedStep dbg) s s' := by
  obtain ⟨going, found, turns, _⟩ := ends
  exact .head ⟨t, choice, supplies, found⟩
    (Relation.ReflTransGen.mono (fun _ _ turn => ⟨t, turn.2⟩) _ _ turns)

/-- Insertions in a row are a run, by induction on their number. -/
theorem InsertsInRow.run (row : InsertsInRow dbg t count s s')
    : Relation.ReflTransGen (SuppliedStep dbg) s s' := by
  induction row with
  | none => exact .refl
  | more first _ ih =>
      obtain ⟨value, offered, inserted, taking, inserting, returning⟩ := first
      exact ((taking.run rfl).trans (inserting.run rfl)).trans (.head ⟨t, .go, rfl, returning⟩ ih)

/-- Insertions in a row come after the first of them, by induction on the number of these. -/
theorem InsertsInRow.split {first rest : Nat} (row : InsertsInRow dbg t (first + rest) s s')
    : ∃ middle, InsertsInRow dbg t first s middle ∧ InsertsInRow dbg t rest middle s' := by
  induction first generalizing s with
  | zero =>
      rw [Nat.zero_add] at row
      exact ⟨s, .none, row⟩
  | succ first ih =>
      rw [Nat.succ_add] at row
      cases row with
      | more one others =>
          obtain ⟨middle, before, after⟩ := ih others
          exact ⟨middle, .more one before, after⟩

/-- A single thread finds its stock: the free slots and the memory. -/
theorem Solo.stocked (solo : Solo dbg s)
    (run : Relation.ReflTransGen (SuppliedStep dbg) (.withKey T K V E) s)
    (rests : s.pc t = .idle) (alone : s.Alone t)
    : ∃ free, s.Stocked free ∧ s.used + free.length = s.len := by
  obtain ⟨free, inv⟩ := solo.calm.reachable.inv
  have within (idx : Nat) (member : idx ∈ free) : idx < s.len := by
    have begun : (s.view free).phase idx ≠ .unborn := by
      rw [(inv.owned.free idx).mp member]
      exact nofun
    exact inv.owned.lt_len begun
  have beyond (idx : Nat) (most : s.len ≤ idx) : s.Vacant idx := by
    have words := inv.owned.slots idx
    rw [(inv.owned.born idx).mpr most] at words
    have unoccupied : (s.slots idx).version = 0 := words.1
    exact ⟨words.2.1, by rw [unoccupied]⟩
  have housed (idx : Nat) (less : idx < s.len) : (s.chunks (chunkOf idx)).isSome :=
    housed_of_alone run (by rw [rests]; rfl) alone less
  have nodup : free.Nodup := inv.owned.nodup
  refine ⟨free, ⟨inv.chain, nodup, within, fun idx => inv.vacant_of_free, beyond,
    housed, inv.owned.bound⟩, ?_⟩
  have used : (Finset.range s.len).filter s.InUse = Finset.range s.len \ free.toFinset := by
    ext idx
    rw [Finset.mem_filter, Finset.mem_sdiff, List.mem_toFinset, Finset.mem_range]
    exact and_congr_right fun less => inv.inUse_iff solo.calm.nothingLost less
  have listed : free.toFinset ⊆ Finset.range s.len := fun idx member =>
    Finset.mem_range.mpr (within idx (List.mem_toFinset.mp member))
  have cards := Finset.card_sdiff_add_card_eq_card listed
  rwa [← used, List.toFinset_card_of_nodup nodup, Finset.card_range] at cards

/-- Insertions in a row keep the capacity if their slots fit into it, or if there is nothing left
to allocate.
-/
theorem capacity_row (solo : Solo dbg s)
    (run : Relation.ReflTransGen (SuppliedStep dbg) (.withKey T K V E) s)
    (rests : s.pc t = .idle) (alone : s.Alone t) (row : InsertsInRow dbg t count s s')
    : s'.capacity = s.capacity
      ↔ s.used + count ≤ s.capacity ∨ ∀ chunk < CHUNKS, (s.chunks chunk).isSome := by
  obtain ⟨free, stocked, balance⟩ := solo.stocked run rests alone
  have len := stocked.len_le_capacity
  by_cases all : ∀ chunk < CHUNKS, (s.chunks chunk).isSome
  · have all' (chunk : Nat) (less : chunk < CHUNKS) : (s'.chunks chunk).isSome :=
      present_of_run (steps_of_supplied row.run) (all chunk less)
    refine iff_of_true ?_ (Or.inr all)
    rw [capacity_eq le_rfl all' fun less => absurd less (Nat.lt_irrefl _),
      capacity_eq le_rfl all fun less => absurd less (Nat.lt_irrefl _)]
  · have missing : ∃ chunk < CHUNKS, s.chunks chunk = .none := by
      push Not at all
      obtain ⟨chunk, less, none⟩ := all
      exact ⟨chunk, less, Option.not_isSome_iff_eq_none.mp none⟩
    have small : s.capacity + 1 < 2 ^ 32 := by
      obtain ⟨first, most, capacity, present, _⟩ := s.exists_capacity
      rw [capacity]
      refine capacityBelow_lt_word (Nat.lt_of_le_of_ne most ?_)
      rintro rfl
      exact all present
    refine ⟨fun same => Or.inl ?_, fun fits => ?_⟩
    · by_contra beyond
      obtain ⟨rest, rfl⟩ : ∃ rest, count = (s.capacity + 1 - s.used) + rest :=
        ⟨count - (s.capacity + 1 - s.used), by omega⟩
      obtain ⟨middle, before, after⟩ := row.split
      have supplied := stocked.row rests before (by omega)
      have longer := supplied.len
      have outgrown := supplied.outgrown (by omega) missing
      have later : middle.capacity ≤ s'.capacity := capacity_mono fun chunk =>
        present_of_run (steps_of_supplied after.run)
      omega
    · have fits := fits.resolve_right all
      have supplied := stocked.row rests row (by omega)
      have longer := supplied.len
      exact supplied.kept (by omega)

omit [Key K] [DecidableEq T] in
/-- While no call is being executed the slots in use are the elements and the pinned slots. -/
theorem used_eq_occupied_add_pinned (resting : ∀ u, (s.pc u).Rests)
    : s.used = s.occupied.card + s.pinned := by
  have free (u : T) (idx : Nat) : (s.pc u).holds ≠ some idx := by
    rcases resting u with idle | ⟨_, iterating⟩
    · rw [idle]
      exact nofun
    · rw [iterating]
      exact nofun
  have inUse (idx : Nat) : s.InUse idx
      ↔ (s.slots idx).version % 2 = 1
        ∨ (s.slots idx).version % 2 = 0 ∧ 0 < (s.slots idx).refCount := by
    constructor
    · rintro (odd | referenced | ⟨u, holds⟩)
      · exact Or.inl odd
      · omega
      · exact absurd holds (free u idx)
    · rintro (odd | ⟨_, referenced⟩)
      · exact Or.inl odd
      · exact Or.inr (Or.inl referenced)
  rw [used, occupied, pinned, Finset.filter_congr fun idx _ => inUse idx, Finset.filter_or]
  refine Finset.card_union_of_disjoint ?_
  refine Finset.disjoint_filter.mpr fun idx _ odd => ?_
  omega

end

end Sys

-----------------------------------------------------------------------------------------
-- The promise
-----------------------------------------------------------------------------------------

open Sys in
/-- In every state of a single thread in which no allocation has failed, `n` insertions in a row
leave the capacity as it is exactly if there are `n` more slots than those in use, or if all
chunks are there anyway. While no other call is being executed the slots in use are as many
as `lossy_len` counts and those that are pinned by guards on removed values. The insertions
do come to their end unless the map is full.
-/
theorem capacity_promise_iff [DecidableEq T] [Fintype T] {dbg : Bool} {s : Sys T K V E}
    (solo : Solo dbg s)
    (run : Relation.ReflTransGen (SuppliedStep dbg) (.withKey T K V E) s) {t : T}
    (rests : s.pc t = .idle) (alone : s.Alone t) (n : Nat)
    : (∀ s', InsertsInRow dbg t n s s' →
        (s'.capacity = s.capacity
          ↔ s.used + n ≤ s.capacity ∨ ∀ chunk < CHUNKS, (s.chunks chunk).isSome))
      ∧ ((∀ u, (s.pc u).Rests) → s.used = s.numElems + s.pinned)
      ∧ (s.used + n < 2 ^ 32 → ∀ _ : V, ∃ s', InsertsInRow dbg t n s s') := by
  obtain ⟨free, stocked, balance⟩ := solo.stocked run rests alone
  refine ⟨fun s' => capacity_row solo run rests alone, fun resting => ?_, fun room value => ?_⟩
  · obtain ⟨free, inv⟩ := solo.calm.reachable.inv
    rw [used_eq_occupied_add_pinned resting,
      (tallied_of_run solo.steps).numElems_eq inv solo.calm.nothingLost]
    · intro u
      rcases resting u with idle | ⟨_, iterating⟩
      · rw [idle]
        rfl
      · rw [iterating]
        rfl
    · intro u
      rcases resting u with idle | ⟨_, iterating⟩
      · rw [idle]
        rfl
      · rw [iterating]
        rfl
  · have bound := stocked.bound
    exact stocked.exists_row dbg rests value (by omega)

/-- A single thread inserts 32 values, takes a guard on the first and removes its key. -/
def insertGetRemoveAmong32 : List (Unit × Choice UInt64 Nat Empty) :=
  Sys.turns () (
    [.call .tryInsertWithKey, .go, .go, .go, .go, .go, .closureOk 7] ++ List.replicate 6 .go
    ++ (List.replicate 31 (
      [.call .tryInsertWithKey, .go, .go, .go, .closureOk 7] ++ List.replicate 6 .go)).flatten
    ++ .call (.get ((1 : UInt64) <<< 32) false) :: List.replicate 6 .go
    ++ .call (.remove ((1 : UInt64) <<< 32)) :: List.replicate 7 .go)

open Sys in
/-- What that run leads to: 31 elements and a pinned slot. -/
theorem exists_insertGetRemoveAmong32
    : ∃ s : Sys Unit UInt64 Nat Empty,
        Solo false s
        ∧ Relation.ReflTransGen (SuppliedStep false) (.withKey Unit UInt64 Nat Empty) s
        ∧ s.pc () = .idle
        ∧ s.numElems = 31
        ∧ s.used = 32
        ∧ s.capacity = 32
        ∧ s.chunks 1 = none := by
  have found : (Sys.runIf (fun s t => s.within? t && decide (s.Alone t) && s.calm?) false
      (.withKey Unit UInt64 Nat Empty) insertGetRemoveAmong32).map
      (fun s => (s.calm?, (s.pc ()).idle?, s.numElems, s.used, s.capacity, (s.chunks 1).isNone))
      = some (true, true, 31, 32, 32, true) := by
    decide +kernel
  obtain ⟨s, reached, after⟩ := Option.map_eq_some_iff.mp found
  simp only [Prod.mk.injEq] at after
  obtain ⟨calm, idle, counter, used, capacity, missing⟩ := after
  exact ⟨s, .of_run reached calm, supplied_of_runIf reached (by decide +kernel), Pc.eq_idle idle,
    counter, used, capacity, Option.isNone_iff_eq_none.mp missing⟩

open Sys in
/-- After that run the next insertion allocates, although it and the elements fit into the
capacity.
-/
theorem capacity_promise_iff_insertGetRemoveAmong32
    : ∃ s s' : Sys Unit UInt64 Nat Empty,
        InsertsInRow false () 1 s s'
        ∧ s.numElems + 1 ≤ s.capacity
        ∧ s.used = s.numElems + s.pinned
        ∧ s'.capacity ≠ s.capacity := by
  obtain ⟨s, solo, run, rests, counter, used, capacity, missing⟩ := exists_insertGetRemoveAmong32
  have alone : s.Alone () := fun _ apart => absurd rfl apart
  obtain ⟨exactly, parts, exist⟩ := capacity_promise_iff solo run rests alone 1
  obtain ⟨s', row⟩ := exist (by omega) 8
  refine ⟨s, s', row, by omega, parts fun _ => Or.inl rests, fun same => ?_⟩
  rcases (exactly s' row).mp same with fits | all
  · omega
  · have found := all 1 (by decide)
    rw [missing] at found
    cases found

open Sys in
/-- The map promises too much: 31 elements are fewer than the capacity of 32, and one more
insertion allocates.
-/
theorem capacity_promise_broken
    : ¬ ∀ s : Sys Unit UInt64 Nat Empty,
        Solo false s →
        Relation.ReflTransGen (SuppliedStep false) (.withKey Unit UInt64 Nat Empty) s →
        s.pc () = .idle →
        ∀ n s', s.numElems + n ≤ s.capacity → InsertsInRow false () n s s' →
          s'.capacity = s.capacity := by
  intro promise
  obtain ⟨s, solo, run, rests, counter, used, capacity, missing⟩ := exists_insertGetRemoveAmong32
  have alone : s.Alone () := fun _ apart => absurd rfl apart
  obtain ⟨free, stocked, balance⟩ := solo.stocked run rests alone
  have len := stocked.len_le_capacity
  obtain ⟨s', row⟩ : ∃ s', InsertsInRow false () 1 s s' :=
    stocked.exists_row false rests 8 (by omega)
  rcases (capacity_row solo run rests alone row).mp
    (promise s solo run rests 1 s' (by omega) row) with fits | all
  · omega
  · have found := all 1 (by decide)
    rw [missing] at found
    cases found

end AtomicSlotMap
