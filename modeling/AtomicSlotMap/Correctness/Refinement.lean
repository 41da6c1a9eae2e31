import AtomicSlotMap.Correctness.GuardSafety

/-! The program refines the ownership protocol. Whatever stretch of a run one looks at, the slots,
the free list that is linked through them, the guards and the events of the program change as the
protocol allows.
-/

namespace AtomicSlotMap

variable {T K V E : Type} [Key K]

namespace Sys

variable [DecidableEq T] [Fintype T] {dbg : Bool} {s s' : Sys T K V E} {free : List Nat}

/-- The free list of a reachable state is the one of the invariant. -/
theorem FreeList.inv (list : s.FreeList free) (reachable : Reachable dbg s) : s.Inv free := by
  obtain ⟨free', inv⟩ := reachable.inv
  rw [list.unique inv.chain]
  exact inv

end Sys

open Sys in
/-- Every stretch of a run, from any reachable state, is a run of the ownership protocol: on the slots
of the program, on the list that starts at `free_head` and is linked through the slots, on the guards
and on the events, with the role that each program counter stands for. The list never branches, ends
or contains a cycle on the way.
-/
theorem refines_ownership [DecidableEq T] [Fintype T] {dbg : Bool} {s s' : Sys T K V E}
    {free : List Nat} (reachable : Reachable dbg s) (list : s.FreeList free)
    (run : Relation.ReflTransGen (Next dbg) s s')
    : ∃ free',
        s'.FreeList free'
        ∧ free'.Nodup
        ∧ Relation.ReflTransGen Ownership.Step (s.view free) (s'.view free') := by
  obtain ⟨w, protocol, free', rfl, inv⟩ :=
    simulates.run ⟨free, rfl, list.inv reachable⟩ run
  exact ⟨free', inv.chain, inv.owned.nodup, protocol⟩

/-- A single activity removes a key and drops the last guard on its value. -/
def removeAndDrop : List (Unit × Choice UInt64 Nat Empty) :=
  Sys.turns () (
    .go :: .call (.remove ((1 : UInt64) <<< 32)) :: List.replicate 7 .go
    ++ .call (.dropGuard 0) :: List.replicate 11 .go)

open Sys in
/-- Between the insertion and the drop the protocol recycles the slot. -/
theorem refines_ownership_removeAndDrop
    : ∃ (s s' : Sys Unit UInt64 Nat Empty),
        s.FreeList []
        ∧ s'.FreeList [0]
        ∧ Relation.ReflTransGen Ownership.Step (s.view []) (s'.view [0]) := by
  have found : ((Sys.run true (.withKey Unit UInt64 Nat Empty) insertAndGet).bind fun s =>
      (Sys.run true s removeAndDrop).map fun s' => (s, s')).map
      (fun (s, s') => (s.freeHead, s'.freeHead, (s'.slots 0).nextFree))
      = some (packFreeHead 0 SENTINEL, packFreeHead 1 0, SENTINEL) := by decide +kernel
  obtain ⟨⟨s, s'⟩, both, same⟩ := Option.map_eq_some_iff.mp found
  obtain ⟨before, first, rest⟩ := Option.bind_eq_some_iff.mp both
  obtain ⟨after, second, pair⟩ := Option.map_eq_some_iff.mp rest
  cases pair
  simp only [Prod.mk.injEq] at same
  obtain ⟨head, head', next⟩ := same
  have list : s.FreeList [] := by
    rw [FreeList, head]
    show (unpackFreeHead (packFreeHead 0 SENTINEL)).2 = SENTINEL
    decide
  have list' : s'.FreeList [0] := by
    have first : (unpackFreeHead (packFreeHead 1 0)).2 = 0 := by decide
    rw [FreeList, head', first]
    exact ⟨rfl, by decide, next⟩
  obtain ⟨free', linked, _, protocol⟩ :=
    refines_ownership (.of_run first) list (next_of_run second)
  rw [linked.unique list'] at protocol
  exact ⟨s, s', list, list', protocol⟩

end AtomicSlotMap
