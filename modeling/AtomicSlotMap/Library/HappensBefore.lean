import Mathlib.Data.Finset.Insert
import Mathlib.Data.Finset.Lattice.Basic

/-! What happens before what in an interleaving of accesses to memory, by the orderings of its
atomic accesses. An actor knows an earlier access if program order and the synchronisation between
releases and acquires order it before whatever the actor does next.
-/

namespace Library

/-- Memory orderings of atomic accesses. -/
inductive MemoryOrder
  | relaxed
  | acquire
  | release
  | acqRel

def MemoryOrder.acquires : MemoryOrder → Bool
  | .acquire | .acqRel => true
  | .relaxed | .release => false

def MemoryOrder.releases : MemoryOrder → Bool
  | .release | .acqRel => true
  | .relaxed | .acquire => false

/-- What an actor does: atomic loads, stores and read-modify-writes, acquire fences, and accesses
that are to be ordered.
-/
inductive MemoryEffect (L A : Type*)
  | load (loc : L) (order : MemoryOrder)
  | store (loc : L) (order : MemoryOrder)
  | update (loc : L) (order : MemoryOrder)
  | fence
  | access (access : A)

/-- A compare-exchange, which is a load when it fails. -/
def MemoryEffect.exchange {L A : Type*} (succeeds : Bool) (loc : L) (success failure : MemoryOrder)
    : MemoryEffect L A :=
  if succeeds then .update loc success else .load loc failure

@[simp] theorem MemoryEffect.exchange_ne_store {L A : Type*} (succeeds : Bool) (loc loc' : L)
    (success failure order : MemoryOrder)
    : MemoryEffect.store loc' order ≠ (.exchange succeeds loc success failure : MemoryEffect L A) := by
  cases succeeds <;> exact nofun

@[simp] theorem MemoryEffect.exchange_ne_access {L A : Type*} (succeeds : Bool) (loc : L)
    (success failure : MemoryOrder) (access : A)
    : MemoryEffect.access access ≠ .exchange succeeds loc success failure := by
  cases succeeds <;> exact nofun

/-- The state of knowledge. Accesses are numbered in the order in which they are made; each is
logged with those known to its actor. What an actor has read by relaxed loads is pending until a
fence, and what a location has released is what an acquire of its present value makes known.
-/
structure Clocks (T L A : Type*) where
  knows : T → Finset Nat
  pending : T → Finset Nat
  released : L → Finset Nat
  log : List (A × Finset Nat)

namespace Clocks

variable {T L A : Type*}

/-- Nothing has been accessed. -/
def start : Clocks T L A where
  knows := fun _ => ∅
  pending := fun _ => ∅
  released := fun _ => ∅
  log := []

/-- All accesses so far of this kind are among these. -/
def Covers (c : Clocks T L A) (seen : Finset Nat) (kind : A → Prop) : Prop :=
  ∀ i access past, c.log[i]? = some (access, past) → kind access → i ∈ seen

/-- Of two accesses in conflict the earlier one happens before the later one. -/
def Ordered (c : Clocks T L A) (conflict : A → A → Prop) : Prop :=
  ∀ (i j : Nat) (earlier later : A) (past known : Finset Nat),
    c.log[i]? = some (earlier, past) → c.log[j]? = some (later, known) → i < j →
    conflict earlier later → i ∈ known

section

variable [DecidableEq T] [DecidableEq L]

/-- The value of a location is read. -/
def read (c : Clocks T L A) (t : T) (loc : L) (order : MemoryOrder) : Clocks T L A :=
  {
    c with
    pending := Function.update c.pending t (c.pending t ∪ c.released loc)
    knows :=
      if order.acquires then Function.update c.knows t (c.knows t ∪ c.released loc) else c.knows
  }

/-- What the effects of an actor make known. A store breaks the release sequence of its location,
which a read-modify-write continues.
-/
def apply (c : Clocks T L A) (t : T) : MemoryEffect L A → Clocks T L A
  | .load loc order => c.read t loc order
  | .store loc order =>
      {
        c with
        released := Function.update c.released loc (if order.releases then c.knows t else ∅)
      }
  | .update loc order =>
      let read := c.read t loc order
      {
        read with
        released :=
          if order.releases then
            Function.update read.released loc (read.released loc ∪ read.knows t)
          else read.released
      }
  | .fence => { c with knows := Function.update c.knows t (c.knows t ∪ c.pending t) }
  | .access access =>
      {
        c with
        knows := Function.update c.knows t (insert c.log.length (c.knows t))
        log := c.log ++ [(access, c.knows t)]
      }

/-- The effects of a step, in program order. -/
def run (c : Clocks T L A) (t : T) (effects : List (MemoryEffect L A)) : Clocks T L A :=
  effects.foldl (·.apply t ·) c

variable {c : Clocks T L A} {t other : T} {effects : List (MemoryEffect L A)} {loc : L}
  {order : MemoryOrder} {kind : A → Prop} {conflict : A → A → Prop} {seen seen' : Finset Nat}

@[simp] theorem run_nil : c.run t [] = c := rfl

@[simp] theorem run_cons (effect : MemoryEffect L A)
    : c.run t (effect :: effects) = (c.apply t effect).run t effects := rfl

-----------------------------------------------------------------------------------------
-- Knowledge grows
-----------------------------------------------------------------------------------------

@[simp] theorem knows_fence : (c.apply t .fence).knows t = c.knows t ∪ c.pending t :=
  Function.update_self ..

@[simp] theorem knows_access (access : A)
    : (c.apply t (.access access)).knows t = insert c.log.length (c.knows t) :=
  Function.update_self ..

@[simp] theorem log_access (access : A)
    : (c.apply t (.access access)).log = c.log ++ [(access, c.knows t)] := rfl

@[simp] theorem knows_store : (c.apply t (.store loc order)).knows = c.knows := rfl

@[simp] theorem knows_update
    : (c.apply t (.update loc order)).knows = (c.read t loc order).knows := rfl

@[simp] theorem released_store
    : (c.apply t (.store loc order)).released loc = if order.releases then c.knows t else ∅ :=
  Function.update_self ..

omit [DecidableEq L] in
@[simp] theorem pending_read : (c.read t loc order).pending t = c.pending t ∪ c.released loc :=
  Function.update_self ..

omit [DecidableEq L] in
theorem knows_read_of_ne (apart : other ≠ t) : (c.read t loc order).knows other = c.knows other := by
  rw [read]
  dsimp only
  split
  · rw [Function.update_of_ne apart]
  · rfl

omit [DecidableEq L] in
theorem knows_subset_read : c.knows t ⊆ (c.read t loc order).knows t := by
  rw [read]
  dsimp only
  split
  · rw [Function.update_self]
    exact Finset.subset_union_left
  · exact Finset.Subset.refl _

omit [DecidableEq L] in
/-- An acquire makes known what the location has released. -/
theorem released_subset_read (acquires : order.acquires = true)
    : c.released loc ⊆ (c.read t loc order).knows t := by
  simp only [read, if_pos acquires, Function.update_self]
  exact Finset.subset_union_right

theorem knows_apply_of_ne (apart : other ≠ t) (effect : MemoryEffect L A)
    : (c.apply t effect).knows other = c.knows other := by
  cases effect with
  | load | update => exact knows_read_of_ne apart
  | store => rfl
  | fence | access => exact Function.update_of_ne apart _ _

theorem knows_subset_apply (effect : MemoryEffect L A) : c.knows t ⊆ (c.apply t effect).knows t := by
  cases effect with
  | load | update => exact knows_subset_read
  | store => exact Finset.Subset.refl _
  | fence =>
      rw [knows_fence]
      exact Finset.subset_union_left
  | access =>
      rw [knows_access]
      exact Finset.subset_insert _ _

/-- Locations keep what they have released, except where they are stored to. -/
theorem released_subset_apply {effect : MemoryEffect L A} (unstored : ∀ order, effect ≠ .store loc order)
    : c.released loc ⊆ (c.apply t effect).released loc := by
  cases effect with
  | load | fence | access => exact Finset.Subset.refl _
  | store stored order =>
      have apart : loc ≠ stored := fun same => unstored order (same ▸ rfl)
      exact subset_of_eq (Function.update_of_ne apart _ _).symm
  | update updated order =>
      rw [apply]
      dsimp only
      split
      · by_cases same : loc = updated
        · subst same
          rw [Function.update_self]
          exact Finset.subset_union_left
        · rw [Function.update_of_ne same]
          exact Finset.Subset.refl _
      · exact Finset.Subset.refl _

/-- Only the actor learns something, by induction on the effects. -/
theorem knows_run_of_ne (apart : other ≠ t) : (c.run t effects).knows other = c.knows other := by
  induction effects generalizing c with
  | nil => rfl
  | cons effect effects ih => rw [run_cons, ih, knows_apply_of_ne apart]

theorem knows_subset_run : c.knows t ⊆ (c.run t effects).knows t := by
  induction effects generalizing c with
  | nil => exact Finset.Subset.refl _
  | cons effect effects ih => exact (knows_subset_apply effect).trans ih

theorem released_subset_run (unstored : ∀ order, .store loc order ∉ effects)
    : c.released loc ⊆ (c.run t effects).released loc := by
  induction effects generalizing c with
  | nil => exact Finset.Subset.refl _
  | cons effect effects ih =>
      refine (released_subset_apply fun order same => ?_).trans
        (ih fun order member => unstored order (List.mem_cons_of_mem _ member))
      exact unstored order (same ▸ List.mem_cons_self)

/-- A release makes all that its actor knows available. -/
theorem knows_subset_update (releases : order.releases = true)
    : (c.apply t (.update loc order)).knows t
      ⊆ (c.apply t (.update loc order)).released loc := by
  simp only [apply, if_pos releases, Function.update_self]
  exact Finset.subset_union_right

theorem knows_subset_store (releases : order.releases = true)
    : (c.apply t (.store loc order)).knows t ⊆ (c.apply t (.store loc order)).released loc := by
  rw [released_store, if_pos releases]
  exact Finset.Subset.refl _

/-- An acquire-release makes known what has been released, and nothing else is left. -/
theorem released_subset_update (acquires : order.acquires = true)
    : (c.apply t (.update loc order)).released loc
      ⊆ (c.apply t (.update loc order)).knows t := by
  have read : c.released loc ⊆ (c.read t loc order).knows t := released_subset_read acquires
  rw [knows_update, apply]
  dsimp only
  split
  · rw [Function.update_self]
    exact Finset.union_subset read (Finset.Subset.refl _)
  · exact read

/-- An acquire fence after a read-modify-write of any ordering makes known what has been released. -/
theorem released_subset_fence
    : ((c.apply t (.update loc order)).apply t .fence).released loc
      ⊆ ((c.apply t (.update loc order)).apply t .fence).knows t := by
  have read : c.released loc ⊆ (c.read t loc order).knows t ∪ (c.read t loc order).pending t := by
    rw [pending_read]
    exact Finset.subset_union_right.trans Finset.subset_union_right
  rw [knows_fence]
  simp only [apply]
  split
  · rw [Function.update_self]
    exact Finset.union_subset read Finset.subset_union_left
  · exact read

-----------------------------------------------------------------------------------------
-- Accesses that are known
-----------------------------------------------------------------------------------------

theorem log_apply_of_silent {effect : MemoryEffect L A} (silent : ∀ access, effect ≠ .access access)
    : (c.apply t effect).log = c.log := by
  cases effect with
  | access access => exact absurd rfl (silent access)
  | _ => rfl

omit [DecidableEq T] [DecidableEq L] in
theorem Covers.mono (covers : c.Covers seen kind) (more : seen ⊆ seen') : c.Covers seen' kind :=
  fun i access past found about => more (covers i access past found about)

/-- What has been logged was there before, or is an access of the effects and known to the actor;
by induction on the effects.
-/
theorem logged_run {i : Nat} {access : A} {past : Finset Nat}
    (found : (c.run t effects).log[i]? = some (access, past))
    : c.log[i]? = some (access, past)
      ∨ (.access access ∈ effects ∧ i ∈ (c.run t effects).knows t) := by
  induction effects generalizing c with
  | nil => exact Or.inl found
  | cons effect effects ih =>
      rcases ih found with before | ⟨later, known⟩
      · by_cases silent : ∃ made, effect = .access made
        · obtain ⟨made, rfl⟩ := silent
          rw [log_access, List.getElem?_append] at before
          split at before
          · exact Or.inl before
          · obtain ⟨bounded, same⟩ := List.getElem?_eq_some_iff.mp before
            rw [List.length_singleton, Nat.lt_one_iff] at bounded
            rw [List.getElem_singleton] at same
            cases same
            have logged : i ∈ (c.apply t (.access access)).knows t := by
              rw [knows_access]
              exact Finset.mem_insert.mpr (Or.inl (by omega))
            refine Or.inr ⟨List.mem_cons_self, ?_⟩
            rw [run_cons]
            exact knows_subset_run logged
        · rw [log_apply_of_silent fun made same => silent ⟨made, same⟩] at before
          exact Or.inl before
      · exact Or.inr ⟨List.mem_cons_of_mem _ later, known⟩

/-- Effects without an access of the kind add nothing to be known. -/
theorem Covers.run (covers : c.Covers seen kind)
    (others : ∀ access, .access access ∈ effects → ¬ kind access)
    : (c.run t effects).Covers seen kind := by
  intro i access past found about
  rcases logged_run found with before | ⟨now, _⟩
  · exact covers i access past before about
  · exact absurd about (others access now)

/-- An actor that knows all accesses of a kind goes on to know them, its own included. -/
theorem Covers.own (covers : c.Covers (c.knows t) kind)
    : (c.run t effects).Covers ((c.run t effects).knows t) kind := by
  intro i access past found about
  rcases logged_run found with before | ⟨_, known⟩
  · exact knows_subset_run (covers i access past before about)
  · exact known

omit [DecidableEq L] [DecidableEq T] in
theorem Ordered.start : (Clocks.start : Clocks T L A).Ordered conflict := by
  intro i j earlier later past known found
  cases found

/-- Accesses stay ordered if an actor knows what its next access is in conflict with. -/
theorem Ordered.access (ordered : c.Ordered conflict) {access : A}
    (covers : c.Covers (c.knows t) (conflict · access))
    : (c.apply t (.access access)).Ordered conflict := by
  intro i j earlier later past known found found' less conflicting
  rw [log_access, List.getElem?_append] at found found'
  split at found'
  · next within =>
    rw [if_pos (Nat.lt_trans less within)] at found
    exact ordered i j earlier later past known found found' less conflicting
  · next beyond =>
    obtain ⟨bounded, same⟩ := List.getElem?_eq_some_iff.mp found'
    rw [List.length_singleton, Nat.lt_one_iff] at bounded
    rw [List.getElem_singleton] at same
    cases same
    rw [if_pos (by omega)] at found
    exact covers i earlier past found conflicting

/-- The effects of a step keep accesses ordered, by induction on the effects. -/
theorem Ordered.run (ordered : c.Ordered conflict)
    (covers : ∀ access, .access access ∈ effects → c.Covers (c.knows t) (conflict · access))
    : (c.run t effects).Ordered conflict := by
  induction effects generalizing c with
  | nil => exact ordered
  | cons effect effects ih =>
      refine ih ?_ fun access member => ?_
      · by_cases silent : ∃ made, effect = .access made
        · obtain ⟨made, rfl⟩ := silent
          exact ordered.access (covers made List.mem_cons_self)
        · rw [Ordered, log_apply_of_silent fun made same => silent ⟨made, same⟩]
          exact ordered
      · have known : (c.run t [effect]).Covers ((c.run t [effect]).knows t) (conflict · access) :=
          (covers access (List.mem_cons_of_mem _ member)).own
        exact known

end

end Clocks

end Library
