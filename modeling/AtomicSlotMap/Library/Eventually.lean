import Mathlib.Logic.Relation

/-! Goals that every run reaches. A state from which all runs come to a goal, whatever the steps
choose, is described by a least fixed point; sequences of goals compose.
-/

namespace Library

open Relation

variable {S : Type*} {Step : S → S → Prop} {Goal Goal' : S → Prop} {s s' : S}

/-- Every run comes to a state with the goal, and none gets stuck before. -/
inductive Eventually (Step : S → S → Prop) (Goal : S → Prop) : S → Prop
  | now {s : S} (reached : Goal s) : Eventually Step Goal s
  | next {s first : S} (step : Step s first)
    (later : ∀ s', Step s s' → Eventually Step Goal s')
    : Eventually Step Goal s

/-- From each goal the runs go on to the next goal, by induction on the runs. -/
theorem Eventually.bind (eventually : Eventually Step Goal s)
    (more : ∀ s', Goal s' → Eventually Step Goal' s')
    : Eventually Step Goal' s := by
  induction eventually with
  | now reached => exact more _ reached
  | next step _ ih => exact .next step ih

theorem Eventually.mono (eventually : Eventually Step Goal s) (weaker : ∀ s', Goal s' → Goal' s')
    : Eventually Step Goal' s :=
  eventually.bind fun s' reached => .now (weaker s' reached)

/-- Goals are reached by runs, by induction on the runs. -/
theorem Eventually.with_run (eventually : Eventually Step Goal s)
    : Eventually Step (fun s' => Goal s' ∧ ReflTransGen Step s s') s := by
  induction eventually with
  | now reached => exact .now ⟨reached, .refl⟩
  | next step _ ih =>
      refine .next step fun s' step' => ?_
      exact (ih s' step').mono fun _ ⟨reached, run⟩ => ⟨reached, .head step' run⟩

/-- An outline with a rank that every step lowers leads to the goal at rank zero, by induction on
the rank.
-/
theorem Eventually.of_rank {Outline : Nat → S → Prop} (done : ∀ s, Outline 0 s → Goal s)
    (more
      : ∀ rank s, Outline (rank + 1) s →
          (∃ s', Step s s') ∧ ∀ s', Step s s' → ∃ rank' ≤ rank, Outline rank' s')
    {rank : Nat} (start : Outline rank s)
    : Eventually Step Goal s := by
  induction rank using Nat.strongRecOn generalizing s with
  | ind rank ih =>
      cases rank with
      | zero => exact .now (done s start)
      | succ rank =>
          obtain ⟨⟨first, step⟩, lower⟩ := more rank s start
          refine .next step fun s' step' => ?_
          obtain ⟨rank', less, outline⟩ := lower s' step'
          exact ih rank' (Nat.lt_succ_of_le less) outline

/-- A goal is reached by some run, by induction on the runs. -/
theorem Eventually.exists_run (eventually : Eventually Step Goal s)
    : ∃ s', ReflTransGen Step s s' ∧ Goal s' := by
  induction eventually with
  | now reached => exact ⟨_, .refl, reached⟩
  | next step _ ih =>
      obtain ⟨s', run, reached⟩ := ih _ step
      exact ⟨s', .head step run, reached⟩

/-- A run that has come to its end has reached the goal, if goals have no steps; by induction on
the runs.
-/
theorem Eventually.of_final (eventually : Eventually Step Goal s) (run : ReflTransGen Step s s')
    (final : ∀ s s', Goal s → ¬ Step s s') (ended : ∀ after, ¬ Step s' after)
    : Goal s' := by
  induction eventually with
  | now reached =>
      rcases run.cases_head with rfl | ⟨first, step, _⟩
      · exact reached
      · exact absurd step (final _ _ reached)
  | next step _ ih =>
      rcases run.cases_head with rfl | ⟨first, step', rest⟩
      · exact absurd step (ended _)
      · exact ih first step' rest

end Library
