import AtomicSlotMap.Correctness.Linearization
import AtomicSlotMap.Ownership.Values

/-! When keys come back. The version of a slot counts the insertions into it and the removals
from it, so the n-th insertion returns version 2n + 1, around the word.
-/

namespace AtomicSlotMap

variable {T K V E : Type} [Key K]

/-- Whether an effect is a successful insertion into a slot. -/
def insertsInto (idx : Nat) (effect : Library.Effect (Op K) (Res K V E)) : Bool :=
  match effect.res with
  | .inserted key _ => KeyData.idx key == idx
  | _ => false

/-- Whether an effect is a successful removal from a slot. -/
def removesFrom (idx : Nat) (effect : Library.Effect (Op K) (Res K V E)) : Bool :=
  match effect.op, effect.res with
  | .remove key, .removed true => KeyData.idx key == idx
  | _, _ => false

/-- The successful insertions into a slot. -/
def insertions (idx : Nat) (order : List (Library.Effect (Op K) (Res K V E))) : Nat :=
  order.countP (insertsInto idx)

/-- The successful removals from a slot. -/
def removals (idx : Nat) (order : List (Library.Effect (Op K) (Res K V E))) : Nat :=
  order.countP (removesFrom idx)

/-- The key that a call found present. -/
def reportsPresent (effect : Library.Effect (Op K) (Res K V E)) : Option K :=
  match effect.op, effect.res with
  | .remove key, .removed true => some key
  | .get key _, .got (some _) => some key
  | .containsKey key, .contains true => some key
  | _, _ => none

/-- What an effect says about versions, after the effects before it: an insertion returns the
next odd version of its slot, and a call finds a key present only in the version of the
latest insertion.
-/
structure FollowsVersions (before : List (Library.Effect (Op K) (Res K V E)))
    (effect : Library.Effect (Op K) (Res K V E)) : Prop where
  inserted
    : ∀ key stored, effect.res = .inserted key stored →
        key = KeyData.new (KeyData.idx key) (KeyData.version key)
        ∧ KeyData.version key = (2 * insertions (KeyData.idx key) before + 1) % 2 ^ 32
  present
    : ∀ key, reportsPresent effect = some key →
        insertions (KeyData.idx key) before = removals (KeyData.idx key) before + 1
        ∧ KeyData.version key = (2 * removals (KeyData.idx key) before + 1) % 2 ^ 32

/-- Every effect follows the versions. -/
def VersionLaw (order : List (Library.Effect (Op K) (Res K V E))) : Prop :=
  ∀ before effect after, order = before ++ effect :: after → FollowsVersions before effect

section

variable {order before after : List (Library.Effect (Op K) (Res K V E))}
  {effect : Library.Effect (Op K) (Res K V E)}

theorem VersionLaw.concat (law : VersionLaw order) (last : FollowsVersions order effect)
    : VersionLaw (order ++ [effect]) := by
  intro before other after split
  rcases List.eq_nil_or_concat after with rfl | ⟨rest, final, rfl⟩
  · obtain ⟨rfl, same⟩ := List.append_inj' split rfl
    cases List.singleton_inj.mp same
    exact last
  · rw [List.concat_eq_append, ← List.cons_append, ← List.append_assoc] at split
    exact law before other rest (List.append_inj' split rfl).1

/-- Two insertions return equal keys only if they went to one slot and a multiple of 2^31
insertions lies between them.
-/
theorem VersionLaw.inserted_eq_iff (law : VersionLaw order)
    {before' after' : List (Library.Effect (Op K) (Res K V E))}
    {effect' : Library.Effect (Op K) (Res K V E)} {key key' : K} {stored stored' : Stored V}
    (split : order = before ++ effect :: after) (split' : order = before' ++ effect' :: after')
    (res : effect.res = .inserted key stored) (res' : effect'.res = .inserted key' stored')
    : key = key'
      ↔ KeyData.idx key = KeyData.idx key'
        ∧ insertions (KeyData.idx key) before % 2 ^ 31
          = insertions (KeyData.idx key') before' % 2 ^ 31 := by
  obtain ⟨made, version⟩ := (law before effect after split).inserted key stored res
  obtain ⟨made', version'⟩ := (law before' effect' after' split').inserted key' stored' res'
  constructor
  · rintro rfl
    exact ⟨rfl, by omega⟩
  · rintro ⟨place, count⟩
    have versions : KeyData.version key = KeyData.version key' := by omega
    rw [made, made', place, versions]

/-- A removed key is not found again before its slot has had 2^31 more insertions. -/
theorem VersionLaw.absent_after_removal (law : VersionLaw order)
    {later : List (Library.Effect (Op K) (Res K V E))} {removal : Nat} {key key' : K}
    (split
      : order = before ++ ⟨removal, .remove key, .removed true⟩ :: later ++ effect :: after)
    (present : reportsPresent effect = some key')
    (same : KeyData.place key' = KeyData.place key)
    : 2 ^ 31 ≤ insertions (KeyData.idx key) later := by
  obtain ⟨place, stamp⟩ := Prod.mk.inj same
  obtain ⟨full, version⟩ := (law before ⟨removal, .remove key, .removed true⟩
    (later ++ effect :: after) (by rw [split, List.append_assoc, List.cons_append])).present
    key rfl
  obtain ⟨full', version'⟩ := (law _ effect after split).present key' present
  rw [place] at full' version'
  rw [stamp] at version'
  have inserted : insertions (KeyData.idx key)
      (before ++ ⟨removal, .remove key, .removed true⟩ :: later)
      = insertions (KeyData.idx key) before + insertions (KeyData.idx key) later := by
    simp [insertions, insertsInto]
  have removed : removals (KeyData.idx key)
      (before ++ ⟨removal, .remove key, .removed true⟩ :: later)
      = removals (KeyData.idx key) before + removals (KeyData.idx key) later + 1 := by
    simp [removals, removesFrom]
    omega
  omega

end

-----------------------------------------------------------------------------------------
-- The versions of the slots
-----------------------------------------------------------------------------------------

namespace Sys

/-- The version of each slot counts what happened to it. -/
def Versioned (s : Sys T K V E) : Prop :=
  ∀ idx,
    insertions idx (Library.effects s.history)
      = removals idx (Library.effects s.history) + (s.slots idx).version % 2
    ∧ (s.slots idx).version
      = (insertions idx (Library.effects s.history)
          + removals idx (Library.effects s.history)) % 2 ^ 32

variable [DecidableEq T] [Fintype T] {dbg : Bool} {s s' : Sys T K V E} {t : T}
  {free : List Nat} {op : Op K} {res : Res K V E}

omit [DecidableEq T] [Fintype T] in
/-- A key of the current version is that of the latest insertion. -/
theorem Versioned.present (versioned : s.Versioned) {key : K}
    (same : (s.slots (KeyData.idx key)).version = KeyData.version key)
    : insertions (KeyData.idx key) (Library.effects s.history)
        = removals (KeyData.idx key) (Library.effects s.history) + 1
      ∧ KeyData.version key
        = (2 * removals (KeyData.idx key) (Library.effects s.history) + 1) % 2 ^ 32 := by
  obtain ⟨balance, count⟩ := versioned (KeyData.idx key)
  have odd := KeyData.version_odd key
  omega

omit [Key K] [DecidableEq T] [Fintype T] in
/-- The three answers that report a key as present. -/
theorem reportsPresent_eq_some {effect : Library.Effect (Op K) (Res K V E)} {key : K}
    (found : reportsPresent effect = some key)
    : (effect.op = .remove key ∧ effect.res = .removed true)
      ∨ (∃ owning guard, effect.op = .get key owning ∧ effect.res = .got (some guard))
      ∨ (effect.op = .containsKey key ∧ effect.res = .contains true) := by
  obtain ⟨id, op, res⟩ := effect
  simp only [reportsPresent] at found
  split at found
  · cases found
    exact Or.inl ⟨rfl, rfl⟩
  · cases found
    exact Or.inr (Or.inl ⟨_, _, rfl, rfl⟩)
  · cases found
    exact Or.inr (Or.inr ⟨rfl, rfl⟩)
  · cases found

/-- Every effect follows the versions, by cases on the effect. -/
theorem Takes.follows (takes : s.Takes dbg t op res s') (inv : s.Inv free)
    (versioned : s.Versioned) (id : Nat)
    : FollowsVersions (Library.effects s.history) ⟨id, op, res⟩ := by
  cases takes with
  | answered op res pc answers serves =>
      generalize s.pc t = before at answers serves
      refine ⟨?_, ?_⟩
      · rintro key stored rfl
        cases answers
      · intro key found
        rcases reportsPresent_eq_some found with ⟨rfl, rfl⟩ | ⟨_, _, rfl, rfl⟩ | ⟨rfl, rfl⟩
        · cases answers
        · cases answers
        · cases answers with
          | contains key' present same =>
              cases serves
              exact versioned.present (beq_iff_eq.mp same.symm)
  | inserted idx version stored about =>
      obtain ⟨place, stamp, even, occupied, _, _, _⟩ := inv.publishing about
      rw [or_one_of_even even] at occupied
      refine ⟨?_, nofun⟩
      intro key stored' same
      cases same
      obtain ⟨balance, count⟩ := versioned idx
      rw [place, stamp]
      exact ⟨rfl, by omega⟩
  | removed key current about same =>
      have fits := inv.fits t
      rw [about] at fits
      have isVersion : current = KeyData.version key := fits
      refine ⟨nofun, fun other found => ?_⟩
      cases found
      exact versioned.present (same.trans isVersion)
  | acquired op key getter serves about same =>
      refine ⟨?_, ?_⟩
      · cases getter <;> nofun
      · intro other found
        cases getter with
        | get owning =>
            cases serves
            cases found
            exact versioned.present same
        | next currentIdx =>
            cases op <;> cases serves
            cases found
  | cloned guard about bounded => exact ⟨nofun, nofun⟩
  | reserving additional calls => exact ⟨nofun, nofun⟩
  | read id guard calls found => exact ⟨nofun, nofun⟩
  | unguarding id guard calls found => exact ⟨nofun, nofun⟩
  | forgot id guard calls found => exact ⟨nofun, nofun⟩

omit [DecidableEq T] [Fintype T] in
/-- An effect that neither inserts nor removes leaves the counts. -/
theorem Versioned.kept (versioned : s.Versioned) {id : Nat}
    (effects
      : Library.effects s'.history = Library.effects s.history ++ [⟨id, op, res⟩])
    (versions : ∀ idx, (s'.slots idx).version = (s.slots idx).version)
    (inserts : ∀ idx, insertsInto idx ⟨id, op, res⟩ = false)
    (removes : ∀ idx, removesFrom idx ⟨id, op, res⟩ = false)
    : s'.Versioned := by
  intro idx
  rw [effects, versions]
  simpa [insertions, removals, inserts, removes] using versioned idx

/-- Versions keep counting, by cases on the effect. -/
theorem Versioned.takes (versioned : s.Versioned) (inv : s.Inv free) {id : Nat}
    (effects
      : Library.effects s'.history = Library.effects s.history ++ [⟨id, op, res⟩])
    (takes : s.Takes dbg t op res s')
    : s'.Versioned := by
  cases takes with
  | answered op res pc answers serves =>
      generalize s.pc t = before at answers serves
      refine versioned.kept effects (versions_of_slots (slots_answer s t res))
        (fun idx => ?_) fun idx => ?_
      · cases answers <;> rfl
      · cases answers <;> cases op <;> rfl
  | inserted idx version stored about =>
      obtain ⟨place, stamp, even, occupied, _, _, _⟩ := inv.publishing about
      rw [or_one_of_even even] at occupied
      intro other
      obtain ⟨balance, count⟩ := versioned other
      rw [effects, slots_publish]
      by_cases same : other = idx
      · subst other
        rw [Function.update_self]
        simp only [insertions, removals, List.countP_append, List.countP_singleton, insertsInto,
          removesFrom, place, beq_self_eq_true, ↓reduceIte] at balance count ⊢
        simp only [Bool.false_eq_true, ↓reduceIte]
        omega
      · rw [Function.update_of_ne same]
        simpa [insertions, removals, insertsInto, removesFrom, place, Ne.symm same]
          using versioned other
  | removed key current about same =>
      have fits := inv.fits t
      rw [about] at fits
      have isVersion : current = KeyData.version key := fits
      have odd := KeyData.version_odd key
      intro other
      obtain ⟨balance, count⟩ := versioned other
      rw [effects, slots_removeExchange s t same]
      by_cases here : other = KeyData.idx key
      · subst other
        rw [Function.update_self]
        simp only [insertions, removals, List.countP_append, List.countP_singleton, insertsInto,
          removesFrom, beq_self_eq_true, ↓reduceIte, wrappingAdd] at balance count ⊢
        simp only [Bool.false_eq_true, ↓reduceIte]
        omega
      · rw [Function.update_of_ne here]
        simpa [insertions, removals, insertsInto, removesFrom, Ne.symm here]
          using versioned other
  | acquired op key getter serves about same =>
      refine versioned.kept effects (versions_of_slots (slots_acquireCheck s t getter same))
        (fun idx => ?_) fun idx => ?_
      · cases getter <;> rfl
      · cases getter <;> cases op <;> rfl
  | cloned guard about bounded =>
      refine versioned.kept effects (fun idx => ?_) (fun _ => rfl) fun _ => rfl
      rw [slots_cloneGuard]
      by_cases here : idx = KeyData.idx guard.key
      · subst idx
        rw [Function.update_self]
      · rw [Function.update_of_ne here]
  | reserving additional calls | read id guard calls found | unguarding id guard calls found
  | forgot id guard calls found =>
      exact versioned.kept effects (versions_of_slots (slots_answer _ t _)) (fun _ => rfl)
        fun _ => rfl

-----------------------------------------------------------------------------------------
-- Runs
-----------------------------------------------------------------------------------------

/-- The effects follow the versions, and what they inserted was written to the slot of the
key they returned.
-/
structure Numbered (s : Sys T K V E) : Prop where
  versioned : s.Versioned
  law : VersionLaw (Library.effects s.history)
  written
    : ∀ id op key stored, ⟨id, op, .inserted key stored⟩ ∈ Library.effects s.history →
        ∃ actor, .wrote actor (KeyData.idx key) stored ∈ s.trace

omit [DecidableEq T] [Fintype T] in
theorem Numbered.withKey : (Sys.withKey T K V E).Numbered where
  versioned := fun _ => ⟨rfl, rfl⟩
  law := fun before _ _ split => by cases before <;> cases split
  written := nofun

/-- What is about to be published was written to the slot. -/
theorem Inv.wrote_of_publishing (inv : s.Inv free) {idx version : Nat} {stored : Stored V}
    (about : s.pc t = .insertPublish idx version stored)
    : ∃ actor, .wrote actor idx stored ∈ s.trace := by
  have told := inv.owned.lawful.told idx
  have phase : phaseOf s.trace idx = .armed t stored :=
    inv.owned.phase_armed (t := t) (show (s.pc t).role = .armed idx stored by rw [about]; rfl)
  change (phaseOf s.trace idx).Told s.trace idx at told
  rw [phase] at told
  have both : [.armed t idx, .wrote t idx stored].Sublist s.trace := told
  exact ⟨t, both.subset (by simp)⟩

/-- Every step keeps the law. -/
theorem Numbered.moves (numbered : s.Numbered) (inv : s.Inv free) (tracked : s.Tracked)
    (moves : s.Moves dbg t s')
    : s'.Numbered := by
  have grows := moves.records.suffix.subset
  rcases inv.takes tracked moves with silent | ⟨id, op, res, _, effects, takes⟩
  · refine ⟨fun idx => ?_, silent.effects ▸ numbered.law, fun id op key stored member => ?_⟩
    · rw [silent.effects, silent.versions]
      exact numbered.versioned idx
    · rw [silent.effects] at member
      exact (numbered.written id op key stored member).imp fun _ earlier => grows earlier
  · refine ⟨numbered.versioned.takes inv effects takes, ?_, fun other op' key stored member => ?_⟩
    · rw [effects]
      exact numbered.law.concat (takes.follows inv numbered.versioned id)
    · rw [effects] at member
      rcases List.mem_append.mp member with before | now
      · exact (numbered.written other op' key stored before).imp fun _ earlier => grows earlier
      · cases List.mem_singleton.mp now
        generalize inserted : (Res.inserted key stored : Res K V E) = res at takes
        cases takes with
        | inserted idx version value about =>
            cases inserted
            obtain ⟨actor, wrote⟩ := inv.wrote_of_publishing about
            rw [(inv.publishing about).1]
            exact ⟨actor, grows wrote⟩
        | answered op res pc answers serves =>
            generalize s.pc t = before at answers
            cases answers <;> cases inserted
        | acquired op key getter serves about same => cases getter <;> cases inserted
        | _ => cases inserted

/-- Every reachable state keeps the law, by induction on the run. -/
theorem Reachable.numbered (reachable : Reachable dbg s) : s.Numbered :=
  Library.ReflTransGen.invariant_with (fun s => (∃ free, s.Inv free) ∧ s.Tracked) reachable
    (fun _ reachable => ⟨Reachable.inv reachable, tracked_of_run (Reachable.run reachable)⟩)
    .withKey
    fun _ _ ⟨⟨_, inv⟩, tracked⟩ _ numbered ⟨_, _, _, found⟩ =>
      numbered.moves inv tracked (step_moves found)

end Sys

open Sys in
/-- Every history has a linearization in which keys come back exactly as the versions say: the
n-th insertion into a slot, whose value is written there, returns its index and version
(2n + 1) mod 2^32; two insertions return equal keys exactly if they went to the same slot with
counts of insertions before them that agree mod 2^31; and a key whose removal returned true is
not reported present again before its slot has had 2^31 more insertions.
-/
theorem key_reuse [DecidableEq T] [Fintype T] {dbg : Bool} {s : Sys T K V E}
    (reachable : Reachable dbg s)
    : ∃ order,
        Library.Linearization FiniteMap.Step ∅ s.history order
        ∧ (∀ before id op key stored after,
            order = before ++ ⟨id, op, .inserted key stored⟩ :: after →
              (∃ actor, .wrote actor (KeyData.idx key) stored ∈ s.trace)
              ∧ KeyData.version key = (2 * insertions (KeyData.idx key) before + 1) % 2 ^ 32)
        ∧ (∀ before id op key stored after before' id' op' key' stored' after',
            order = before ++ ⟨id, op, .inserted key stored⟩ :: after →
            order = before' ++ ⟨id', op', .inserted key' stored'⟩ :: after' →
              (key = key'
                ↔ KeyData.idx key = KeyData.idx key'
                  ∧ insertions (KeyData.idx key) before % 2 ^ 31
                    = insertions (KeyData.idx key') before' % 2 ^ 31))
        ∧ ∀ before id key later effect after key',
            order = before ++ ⟨id, .remove key, .removed true⟩ :: later ++ effect :: after →
            reportsPresent effect = some key' → KeyData.place key' = KeyData.place key →
              2 ^ 31 ≤ insertions (KeyData.idx key) later := by
  obtain ⟨map, run, _⟩ := reachable.explained
  have recorded := (tracked_of_run reachable.run).recorded
  have numbered := reachable.numbered
  refine ⟨_, recorded.linearization run, ?_, ?_, ?_⟩
  · intro before id op key stored after split
    refine ⟨numbered.written id op key stored ?_,
      ((numbered.law before _ after split).inserted key stored rfl).2⟩
    rw [split]
    exact List.mem_append_right _ List.mem_cons_self
  · intro before id op key stored after before' id' op' key' stored' after' split split'
    exact numbered.law.inserted_eq_iff split split' rfl rfl
  · intro before id key later effect after key' split present same
    exact numbered.law.absent_after_removal split present same

/-- A single activity inserts a value, removes it and inserts another one. -/
def insertRemoveInsert : List (Unit × Choice UInt64 Nat Empty) :=
  Sys.turns () (
    [.call .tryInsertWithKey, .go, .go, .go, .go, .go, .closureOk 7]
    ++ List.replicate 8 .go
    ++ .call (.remove ((1 : UInt64) <<< 32)) :: List.replicate 14 .go
    ++ .call .tryInsertWithKey :: List.replicate 8 .go
    ++ .closureOk 8 :: List.replicate 8 .go)

/-- The second insertion of that run returns version 3 of the slot, having one before it. -/
theorem key_reuse_insertRemoveInsert
    : ∃ (s : Sys Unit UInt64 Nat Empty) (order : _),
        Library.Linearization FiniteMap.Step ∅ s.history order
        ∧ ∃ before op after,
            order = before ++ ⟨2, op, .inserted ((3 : UInt64) <<< 32) ⟨13, 8⟩⟩ :: after
            ∧ 3 = (2 * insertions 0 before + 1) % 2 ^ 32 := by
  have found : (Sys.run true (.withKey Unit UInt64 Nat Empty) insertRemoveInsert).map
      (fun s => decide (.ret 2 (.inserted ((3 : UInt64) <<< 32) ⟨13, 8⟩) ∈ s.history))
      = some true := by decide +kernel
  obtain ⟨s, reached, returned⟩ := Option.map_eq_some_iff.mp found
  obtain ⟨order, explains, numbered, _⟩ := key_reuse (Sys.Reachable.of_run reached)
  obtain ⟨op, member⟩ := explains.complete 2 _ (of_decide_eq_true returned)
  obtain ⟨before, after, split⟩ := List.append_of_mem member
  exact ⟨s, order, explains, before, op, after, split, (numbered _ _ _ _ _ _ split).2⟩

end AtomicSlotMap
