import Mathlib.Logic.Relation

/-! Invariants and forward simulations of step relations.
A run is a reflexive-transitive chain of steps, possibly with silent stretches on the
abstract side.
-/

namespace Library

open Relation

variable {S A : Type*} {Step : S → S → Prop} {AbsStep : A → A → Prop} {s s' : S}

/-- What holds at the start and is kept by each step holds after every run. -/
theorem ReflTransGen.invariant {Inv : S → Prop} (run : ReflTransGen Step s s')
    (base : Inv s) (keep : ∀ before after, Inv before → Step before after → Inv after)
    : Inv s' := by
  induction run with
  | refl => exact base
  | tail _ last ih => exact keep _ _ ih last

/-- An invariant may use another invariant of the same run in its step. -/
theorem ReflTransGen.invariant_with (Known : S → Prop) {Inv : S → Prop} (run : ReflTransGen Step s s')
    (known : ∀ state, ReflTransGen Step s state → Known state)
    (base : Inv s)
    (keep : ∀ before after, Known before → Known after → Inv before → Step before after
      → Inv after)
    : Inv s' := by
  induction run with
  | refl => exact base
  | tail earlier last ih =>
      exact keep _ _ (known _ earlier) (known _ (earlier.tail last)) ih last

/-- The states that a run passes through, latest first. -/
inductive Path (Step : S → S → Prop) (start : S) : List S → Prop
  | start : Path Step start [start]
  | next {s s' : S} {earlier : List S} (path : Path Step start (s :: earlier)) (step : Step s s')
    : Path Step start (s' :: s :: earlier)

/-- A path leads to its latest state, by induction on the path. -/
theorem Path.run {start : S} {states : List S} (path : Path Step start states)
    : ∀ s ∈ states.head?, ReflTransGen Step start s := by
  induction path with
  | start =>
      rintro s ⟨⟩
      exact .refl
  | next path step ih =>
      rintro s ⟨⟩
      exact (ih _ rfl).tail step

/-- Every run is along a path, by induction on the run. -/
theorem Path.of_run {start : S} (run : ReflTransGen Step start s)
    : ∃ earlier, Path Step start (s :: earlier) := by
  induction run with
  | refl => exact ⟨[], .start⟩
  | tail _ last ih =>
      obtain ⟨earlier, path⟩ := ih
      exact ⟨_, path.next last⟩

/-- A path by steps of one kind is one by steps of a wider kind, by induction on the path. -/
theorem Path.mono {Wider : S → S → Prop} {start : S} {states : List S}
    (path : Path Step start states) (wider : ∀ s s', Step s s' → Wider s s')
    : Path Wider start states := by
  induction path with
  | start => exact .start
  | next _ step ih => exact ih.next (wider _ _ step)

/-- The largest value of a measure along a path. -/
def peak (measure : S → Nat) (states : List S) : Nat := (states.map measure).foldr max 0

@[simp] theorem peak_cons (measure : S → Nat) (s : S) (earlier : List S)
    : peak measure (s :: earlier) = max (measure s) (peak measure earlier) := rfl

/-- `Rel` is a forward simulation: each concrete step is matched by abstract steps. -/
def Simulates (Step : S → S → Prop) (AbsStep : A → A → Prop) (Rel : S → A → Prop) : Prop :=
  ∀ before after abs, Rel before abs → Step before after
    → ∃ abs', ReflTransGen AbsStep abs abs' ∧ Rel after abs'

/-- A forward simulation matches every run by an abstract run, by induction on steps. -/
theorem Simulates.run {Rel : S → A → Prop} (simulates : Simulates Step AbsStep Rel)
    {abs : A} (related : Rel s abs) (run : ReflTransGen Step s s')
    : ∃ abs', ReflTransGen AbsStep abs abs' ∧ Rel s' abs' := by
  induction run with
  | refl => exact ⟨abs, .refl, related⟩
  | tail _ last ih =>
      obtain ⟨middle, absRun, middleRelated⟩ := ih
      obtain ⟨final, lastRun, finalRelated⟩ := simulates _ _ _ middleRelated last
      exact ⟨final, absRun.trans lastRun, finalRelated⟩

end Library
