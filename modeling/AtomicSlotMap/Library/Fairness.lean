import Mathlib.Data.Nat.Init

/-! Goals that are reached in sequences without end. A rank that never rises before the goal, and
that falls again and again, leads to it.
-/

namespace Library

variable {Inv Goal : Nat → Prop} {rank : Nat → Nat}

/-- What every step keeps until the goal is kept or the goal is reached, by induction on the
steps.
-/
theorem kept_until (keeps : ∀ k, Inv k → ¬ Goal k → Inv (k + 1) ∧ rank (k + 1) ≤ rank k)
    {k : Nat} (start : Inv k) (distance : Nat)
    : (∃ j ≥ k, Goal j ∧ Inv j) ∨ (Inv (k + distance) ∧ rank (k + distance) ≤ rank k) := by
  induction distance with
  | zero => exact Or.inr ⟨start, Nat.le_refl _⟩
  | succ distance ih =>
      rcases ih with reached | ⟨inv, low⟩
      · exact Or.inl reached
      · by_cases now : Goal (k + distance)
        · exact Or.inl ⟨k + distance, Nat.le_add_right _ _, now, inv⟩
        · obtain ⟨inv', lower⟩ := keeps _ inv now
          exact Or.inr ⟨inv', Nat.le_trans lower low⟩

/-- The goal is reached if the rank falls again and again, by induction on the rank. -/
theorem reaches_of_rank (Inv Goal : Nat → Prop) (rank : Nat → Nat)
    (keeps : ∀ k, Inv k → ¬ Goal k → Inv (k + 1) ∧ rank (k + 1) ≤ rank k)
    (lowers : ∀ k, Inv k → ∃ j ≥ k, Inv j → ¬ Goal j → rank (j + 1) < rank j)
    {k : Nat} (start : Inv k)
    : ∃ j ≥ k, Goal j ∧ Inv j := by
  induction bound : rank k using Nat.strongRecOn generalizing k with
  | ind bound ih =>
      obtain ⟨j, later, lower⟩ := lowers k start
      obtain ⟨distance, rfl⟩ := Nat.exists_eq_add_of_le later
      rcases kept_until keeps start distance with reached | ⟨inv, low⟩
      · exact reached
      · by_cases now : Goal (k + distance)
        · exact ⟨k + distance, later, now, inv⟩
        · have less := lower inv now
          obtain ⟨j, after, reached⟩ := ih _ (by omega) (keeps _ inv now).1 rfl
          exact ⟨j, by omega, reached⟩

end Library
