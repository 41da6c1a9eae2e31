import Mathlib.Algebra.BigOperators.Group.Finset.Piecewise
import Mathlib.Data.Fintype.BigOperators
import Mathlib.Tactic.Abel

/-! Counting over a finite family of participants, one of whom changes. -/

namespace Library

variable {T R M : Type*} [Fintype T] [DecidableEq T]

/-- Replacing one participant replaces its contribution to a total. -/
theorem total_update [AddCommMonoid M] (role : T → R) (t : T) (next : R) (count : R → M)
    : (∑ x, count (Function.update role t next x)) + count (role t)
      = (∑ x, count (role x)) + count next := by
  have split (f : T → M) : ∑ x, f x = f t + ∑ x ∈ Finset.univ.erase t, f x :=
    (Finset.add_sum_erase _ f (Finset.mem_univ t)).symm
  rw [split, split (fun x => count (role x)), Function.update_self]
  have rest : ∑ x ∈ Finset.univ.erase t, count (Function.update role t next x)
      = ∑ x ∈ Finset.univ.erase t, count (role x) :=
    Finset.sum_congr rfl fun x member => by
      rw [Function.update_of_ne (Finset.ne_of_mem_erase member)]
  rw [rest]
  abel

/-- A total that is split between a ledger and the participants stays split if one participant
changes and both sides grow accordingly.
-/
theorem balance_update [AddCancelCommMonoid M] {role : T → R} {count : R → M}
    {total ledger : M} (t : T) (next : R) (more booked : M)
    (balance : total = ledger + ∑ x, count (role x))
    (step : more + count (role t) = booked + count next)
    : more + total = booked + ledger + ∑ x, count (Function.update role t next x) := by
  apply add_right_cancel (b := count (role t))
  calc more + total + count (role t)
    _ = (more + count (role t)) + total := by abel
    _ = booked + ledger + ((∑ x, count (role x)) + count next) := by
      rw [step, balance]
      abel
    _ = booked + ledger + (∑ x, count (Function.update role t next x)) + count (role t) := by
      rw [← total_update role t next count]
      abel

end Library
