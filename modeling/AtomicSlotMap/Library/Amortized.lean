import Mathlib.Algebra.Order.BigOperators.Group.Finset
import Mathlib.Data.Fintype.Card
import Mathlib.Order.Filter.AtTopBot.Basic

/-! Amortised costs of the steps of a machine. A potential stores the credits that are not spent
yet, so that the costs of a run, finite or not, are paid for by its credits.
-/

namespace Library

open Filter

variable {S L : Type*} {next : S → L → Option S} {states : Nat → S} {labels : Nat → L}
  {cost credit : S → L → Nat} {potential : S → Nat} {length : Nat}

/-- The first states of a sequence follow each other by steps with these labels. -/
def Follows (next : S → L → Option S) (states : Nat → S) (labels : Nat → L) (length : Nat) : Prop :=
  ∀ i < length, next (states i) (labels i) = some (states (i + 1))

/-- A measure of steps, added up over the first steps of a run. -/
def total (measure : S → L → Nat) (states : Nat → S) (labels : Nat → L) (length : Nat) : Nat :=
  ∑ i ∈ Finset.range length, measure (states i) (labels i)

/-- Each step is paid for by its credit and by what the potential gives up. -/
def Amortizes (next : S → L → Option S) (cost credit : S → L → Nat) (potential : S → Nat) : Prop :=
  ∀ s label s', next s label = some s' → cost s label + potential s' ≤ credit s label + potential s

@[simp] theorem total_succ (measure : S → L → Nat)
    : total measure states labels (length + 1)
      = total measure states labels length + measure (states length) (labels length) :=
  Finset.sum_range_succ _ _

theorem total_mono (measure : S → L → Nat) {length' : Nat} (less : length ≤ length')
    : total measure states labels length ≤ total measure states labels length' :=
  Finset.sum_le_sum_of_subset (Finset.range_mono less)

/-- A run is paid for by its credits and by what the potential gives up, by induction on its
length.
-/
theorem Amortizes.run (amortizes : Amortizes next cost credit potential)
    (follows : Follows next states labels length)
    : total cost states labels length + potential (states length)
      ≤ total credit states labels length + potential (states 0) := by
  induction length with
  | zero => exact Nat.le_refl _
  | succ length ih =>
      have earlier := ih fun i less => follows i (Nat.lt_succ_of_lt less)
      have last := amortizes _ _ _ (follows length (Nat.lt_succ_self length))
      rw [total_succ, total_succ]
      omega

theorem Amortizes.total_le (amortizes : Amortizes next cost credit potential)
    (follows : Follows next states labels length)
    : total cost states labels length
      ≤ total credit states labels length + potential (states 0) :=
  (Nat.le_add_right _ _).trans (amortizes.run follows)

/-- What is positive again and again adds up beyond every bound, by induction on the bound. -/
theorem exists_total_ge {measure : S → L → Nat}
    (positive : ∃ᶠ i in atTop, 0 < measure (states i) (labels i)) (bound : Nat)
    : ∃ length, bound ≤ total measure states labels length := by
  induction bound with
  | zero => exact ⟨0, Nat.zero_le _⟩
  | succ bound ih =>
      obtain ⟨length, reached⟩ := ih
      obtain ⟨i, later, more⟩ := frequently_atTop.mp positive length
      refine ⟨i + 1, ?_⟩
      have before : total measure states labels length ≤ total measure states labels i :=
        total_mono measure later
      rw [total_succ]
      omega

/-- What is zero from some step on adds up to what it is there. -/
theorem exists_total_le {measure : S → L → Nat}
    (zero : ∀ᶠ i in atTop, measure (states i) (labels i) = 0)
    : ∃ bound, ∀ length, total measure states labels length ≤ bound := by
  obtain ⟨start, zero⟩ := eventually_atTop.mp zero
  refine ⟨total measure states labels start, fun length => ?_⟩
  induction length with
  | zero => exact Nat.zero_le _
  | succ length ih =>
      by_cases early : length < start
      · exact total_mono measure early
      · rw [total_succ, zero length (Nat.le_of_not_lt early)]
        exact ih

/-- In a run without end whose steps cost something again and again, there are credits again and
again.
-/
theorem Amortizes.frequently (amortizes : Amortizes next cost credit potential)
    (follows : ∀ length, Follows next states labels length)
    (costs : ∃ᶠ i in atTop, 0 < cost (states i) (labels i))
    : ∃ᶠ i in atTop, 0 < credit (states i) (labels i) := by
  by_contra without
  have zero : ∀ᶠ i in atTop, credit (states i) (labels i) = 0 :=
    (not_frequently.mp without).mono fun _ none => Nat.eq_zero_of_not_pos none
  obtain ⟨bound, credits⟩ := exists_total_le zero
  obtain ⟨length, more⟩ := exists_total_ge costs (bound + potential (states 0) + 1)
  have paid := amortizes.total_le (follows length)
  have few := credits length
  omega

/-- A potential that is shared: if each of the others stores at most this much more, then the sum
grows by what the one who moves stores and by the shares of the others.
-/
theorem sum_le_of_others {T : Type*} [Fintype T] [DecidableEq T] {before after : T → Nat} {t : T}
    {extra : Nat} (others : ∀ other, other ≠ t → after other ≤ before other + extra)
    : ∑ u, after u + before t ≤ ∑ u, before u + after t + Fintype.card T * extra := by
  have split (stored : T → Nat) : ∑ u, stored u = stored t + ∑ u ∈ Finset.univ.erase t, stored u :=
    (Finset.add_sum_erase _ stored (Finset.mem_univ t)).symm
  have rest : ∑ u ∈ Finset.univ.erase t, after u
      ≤ ∑ u ∈ Finset.univ.erase t, before u + Fintype.card T * extra :=
    calc ∑ u ∈ Finset.univ.erase t, after u
      _ ≤ ∑ u ∈ Finset.univ.erase t, (before u + extra) :=
        Finset.sum_le_sum fun u member => others u (Finset.ne_of_mem_erase member)
      _ = ∑ u ∈ Finset.univ.erase t, before u + (Finset.univ.erase t).card * extra := by
        rw [Finset.sum_add_distrib, Finset.sum_const_nat fun _ _ => rfl]
      _ ≤ ∑ u ∈ Finset.univ.erase t, before u + Fintype.card T * extra :=
        Nat.add_le_add_left (Nat.mul_le_mul_right _ (Finset.card_le_univ _)) _
  rw [split after, split before]
  omega

end Library
