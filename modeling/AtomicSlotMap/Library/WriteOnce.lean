import Mathlib.Logic.Function.Basic

/-! Cells that are written once. An actor makes a token for a cell without waiting for anyone; the
first one to come finds the cell empty and places its token there, the others discard theirs.
-/

namespace Library.WriteOnce

variable {A I : Type}

/-- What happens to a token. -/
inductive Event (A I : Type)
  | made (actor : A) (cell : I) (token : Nat)
  | placed (actor : A) (cell : I) (token : Nat)
  | discarded (actor : A) (token : Nat)
deriving DecidableEq

/-- The token that an event is about. -/
def Event.token : Event A I → Nat
  | .made _ _ token | .placed _ _ token | .discarded _ token => token

/-- The cells, the number of tokens made so far, the token that each actor has made and neither
placed nor discarded, with the cell it is for, and the events, latest first.
-/
structure State (A I : Type) where
  cells : I → Option Nat
  tokens : Nat
  holds : A → Option (I × Nat)
  events : List (Event A I)

namespace State

/-- What has happened to a token, latest first. -/
def life (s : State A I) (token : Nat) : List (Event A I) :=
  s.events.filter fun event => event.token == token

/-- All cells are empty. -/
def empty (A I : Type) : State A I where
  cells := fun _ => none
  tokens := 0
  holds := fun _ => none
  events := []

end State

/-- The steps of the actors. -/
inductive Step [DecidableEq A] [DecidableEq I] (s : State A I) : State A I → Prop
  | stay : Step s s
  | make (actor : A) (cell : I) (idle : s.holds actor = none)
    : Step s
        {
          s with
          tokens := s.tokens + 1
          holds := Function.update s.holds actor (some (cell, s.tokens))
          events := .made actor cell s.tokens :: s.events
        }
  | place (actor : A) (cell : I) (token : Nat) (holds : s.holds actor = some (cell, token))
    (vacant : s.cells cell = none)
    : Step s
        {
          s with
          cells := Function.update s.cells cell (some token)
          holds := Function.update s.holds actor none
          events := .placed actor cell token :: s.events
        }
  | discard (actor : A) (cell : I) (token : Nat) (holds : s.holds actor = some (cell, token))
    : Step s
        {
          s with
          holds := Function.update s.holds actor none
          events := .discarded actor token :: s.events
        }

-----------------------------------------------------------------------------------------
-- The fates of tokens
-----------------------------------------------------------------------------------------

/-- Where a token stands, with all that has happened to it. -/
inductive Fate (s : State A I) (token : Nat) : Prop
  | pending (actor : A) (cell : I) (holds : s.holds actor = some (cell, token))
    (life : s.life token = [.made actor cell token])
  | placed (actor : A) (cell : I) (found : s.cells cell = some token)
    (life : s.life token = [.placed actor cell token, .made actor cell token])
  | discarded (actor : A) (cell : I)
    (life : s.life token = [.discarded actor token, .made actor cell token])

/-- What holds of every state that the actors reach. -/
structure Inv (s : State A I) : Prop where
  fresh : ∀ token, s.tokens ≤ token → s.life token = []
  held
    : ∀ actor cell token, s.holds actor = some (cell, token) →
        token < s.tokens ∧ s.life token = [.made actor cell token]
  cells
    : ∀ cell token, s.cells cell = some token →
        token < s.tokens
        ∧ ∃ actor, s.life token = [.placed actor cell token, .made actor cell token]
  fates : ∀ token < s.tokens, Fate s token

theorem Inv.empty : Inv (State.empty A I) where
  fresh := fun _ _ => rfl
  held := nofun
  cells := nofun
  fates := nofun

section

variable {s s' : State A I} {token : Nat}

/-- A token is placed in one cell only. -/
theorem Inv.cell_unique (inv : Inv s) {cell cell' : I} (found : s.cells cell = some token)
    (found' : s.cells cell' = some token)
    : cell = cell' := by
  obtain ⟨_, actor, life⟩ := inv.cells cell token found
  obtain ⟨_, actor', life'⟩ := inv.cells cell' token found'
  rw [life] at life'
  cases life'
  rfl

/-- A token that is pending is in no cell. -/
theorem Inv.not_placed (inv : Inv s) {event : Event A I} (life : s.life token = [event])
    (cell : I)
    : s.cells cell ≠ some token := by
  intro found
  obtain ⟨_, placer, life'⟩ := inv.cells cell token found
  rw [life] at life'
  cases life'

/-- A token that was placed is in its cell. -/
theorem Inv.found_of_placed (inv : Inv s) {actor : A} {cell : I} {earlier : List (Event A I)}
    (life : s.life token = .placed actor cell token :: earlier)
    : s.cells cell = some token := by
  have less : token < s.tokens := by
    by_contra beyond
    rw [inv.fresh token (Nat.le_of_not_lt beyond)] at life
    cases life
  cases inv.fates token less with
  | pending _ _ _ life' | discarded _ _ life' =>
      rw [life] at life'
      cases life'
  | placed _ _ found life' =>
      rw [life] at life'
      cases life'
      exact found

/-- An event only adds to the life of its own token. -/
theorem State.life_cons {event : Event A I} (events : s'.events = event :: s.events)
    (token : Nat)
    : s'.life token = if event.token = token then event :: s.life token else s.life token := by
  rw [State.life, events, List.filter_cons, State.life]
  by_cases same : event.token = token
  · simp [same]
  · simp [same]

/-- A step that is about another token. -/
theorem Fate.beside (fate : Fate s token) (life : s'.life token = s.life token)
    (holds
      : ∀ actor cell, s.holds actor = some (cell, token) → s'.holds actor = some (cell, token))
    (cells : ∀ cell, s.cells cell = some token → s'.cells cell = some token)
    : Fate s' token := by
  cases fate with
  | pending actor cell held before =>
      exact .pending actor cell (holds actor cell held) (life.trans before)
  | placed actor cell found before => exact .placed actor cell (cells cell found) (life.trans before)
  | discarded actor cell before => exact .discarded actor cell (life.trans before)

variable [DecidableEq A] [DecidableEq I]

/-- A cell that is filled stays as it is. -/
theorem Step.cells (step : Step s s') {cell : I} (found : s.cells cell = some token)
    : s'.cells cell = some token := by
  cases step with
  | place actor other placed holds vacant =>
      have apart : cell ≠ other := by
        rintro rfl
        rw [vacant] at found
        cases found
      exact (Function.update_of_ne apart _ _).trans found
  | _ => exact found

omit [DecidableEq I] in
/-- Making a token. -/
theorem Inv.make (inv : Inv s) {actor : A} {cell : I} (idle : s.holds actor = none)
    (tokens : s'.tokens = s.tokens + 1) (cells : s'.cells = s.cells)
    (holds : s'.holds = Function.update s.holds actor (some (cell, s.tokens)))
    (events : s'.events = .made actor cell s.tokens :: s.events)
    : Inv s' := by
  have mine : s'.life s.tokens = [.made actor cell s.tokens] := by
    rw [State.life_cons events, inv.fresh s.tokens (Nat.le_refl _)]
    exact if_pos rfl
  have others (token : Nat) (apart : s.tokens ≠ token) : s'.life token = s.life token := by
    rw [State.life_cons events]
    exact if_neg apart
  have kept (other : A) (place : I) (token : Nat) (held : s.holds other = some (place, token)) :
      s'.holds other = some (place, token) := by
    have apart : other ≠ actor := by
      rintro rfl
      rw [idle] at held
      cases held
    rw [holds, Function.update_of_ne apart, held]
  refine ⟨fun token least => ?_, fun other place token held => ?_, fun place token found => ?_,
    fun token less => ?_⟩
  · rw [others token (by omega)]
    exact inv.fresh token (by omega)
  · rw [holds] at held
    by_cases self : other = actor
    · subst other
      rw [Function.update_self] at held
      cases held
      exact ⟨by omega, mine⟩
    · rw [Function.update_of_ne self] at held
      obtain ⟨less, life⟩ := inv.held other place token held
      exact ⟨by omega, (others token (by omega)).trans life⟩
  · rw [cells] at found
    obtain ⟨less, placer, life⟩ := inv.cells place token found
    exact ⟨by omega, placer, (others token (by omega)).trans life⟩
  · rcases Nat.lt_succ_iff_lt_or_eq.mp (tokens ▸ less) with before | rfl
    · refine (inv.fates token before).beside (others token (by omega))
        (fun other place => kept other place token) fun place found => ?_
      rw [cells, found]
    · refine .pending actor cell ?_ mine
      rw [holds, Function.update_self]

omit [DecidableEq I] in
/-- Placing or discarding a token, which its actor no longer holds. -/
theorem Inv.settle (inv : Inv s) (event : Event A I) {actor : A} {cell : I}
    (held : s.holds actor = some (cell, token)) (tokens : s'.tokens = s.tokens)
    (holds : s'.holds = Function.update s.holds actor none)
    (about : event.token = token) (events : s'.events = event :: s.events)
    (cells
      : ∀ place other, s'.cells place = some other →
          s.cells place = some other
          ∨ place = cell ∧ other = token ∧ event = .placed actor cell token)
    (kept : ∀ place other, s.cells place = some other → s'.cells place = some other)
    (settled : event = .placed actor cell token ∧ s'.cells cell = some token
      ∨ event = .discarded actor token)
    : Inv s' := by
  obtain ⟨made, before⟩ := inv.held actor cell token held
  have mine : s'.life token = [event, .made actor cell token] := by
    rw [State.life_cons events, before]
    exact if_pos about
  have others (other : Nat) (apart : other ≠ token) : s'.life other = s.life other := by
    rw [State.life_cons events]
    exact if_neg fun same => apart (same.symm.trans about)
  have apart {other : A} {place : I} {found : Nat}
      (held' : s.holds other = some (place, found)) (self : other ≠ actor) : found ≠ token := by
    rintro rfl
    obtain ⟨_, life⟩ := inv.held other place found held'
    rw [before] at life
    cases life
    exact self rfl
  have lives (place : I) (found : Nat) (there : s.cells place = some found) : found ≠ token := by
    rintro rfl
    exact inv.not_placed before place there
  refine ⟨fun other least => ?_, fun other place found held' => ?_, fun place found there => ?_,
    fun other less => ?_⟩
  · rw [others other (by omega)]
    exact inv.fresh other (tokens ▸ least)
  · rw [holds] at held'
    by_cases self : other = actor
    · rw [self, Function.update_self] at held'
      cases held'
    · rw [Function.update_of_ne self] at held'
      obtain ⟨less, life⟩ := inv.held other place found held'
      exact ⟨tokens ▸ less, (others found (apart held' self)).trans life⟩
  · rcases cells place found there with old | ⟨rfl, rfl, rfl⟩
    · obtain ⟨less, placer, life⟩ := inv.cells place found old
      exact ⟨tokens ▸ less, placer, (others found (lives place found old)).trans life⟩
    · exact ⟨tokens ▸ made, actor, mine⟩
  · by_cases same : other = token
    · subst other
      rcases settled with ⟨rfl, there⟩ | rfl
      · exact .placed actor cell there mine
      · exact .discarded actor cell mine
    · refine (inv.fates other (tokens ▸ less)).beside (others other same) (fun holder place held' => ?_)
        fun place => kept place other
      have self : holder ≠ actor := by
        rintro rfl
        rw [held] at held'
        cases held'
        exact same rfl
      rw [holds, Function.update_of_ne self, held']

/-- Every step keeps the invariant, by cases on the step. -/
theorem Inv.step (inv : Inv s) (step : Step s s') : Inv s' := by
  have kept (place : I) (other : Nat) (found : s.cells place = some other) :
      s'.cells place = some other := step.cells found
  cases step with
  | stay => exact inv
  | make actor cell idle => exact inv.make idle rfl rfl rfl rfl
  | discard actor cell token holds =>
      exact inv.settle (.discarded actor token) holds rfl rfl rfl rfl
        (fun _ _ => Or.inl) kept (Or.inr rfl)
  | place actor cell token holds vacant =>
      refine inv.settle (.placed actor cell token) holds rfl rfl rfl rfl
        (fun place other found => ?_) kept (Or.inl ⟨rfl, Function.update_self _ _ _⟩)
      dsimp only at found
      by_cases same : place = cell
      · subst place
        rw [Function.update_self] at found
        cases found
        exact Or.inr ⟨rfl, rfl, rfl⟩
      · rw [Function.update_of_ne same] at found
        exact Or.inl found

end

end Library.WriteOnce
