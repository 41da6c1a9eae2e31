import AtomicSlotMap.Correctness.Teardown
import AtomicSlotMap.Implementation.Orderings
import AtomicSlotMap.Implementation.Owners

/-! The life of a map behind an `Arc`. The strong count tells who holds an `Arc`: users, owning
guards and calls that were given one. The map is destroyed once, when the last one is given up; then
there are neither guards nor calls in the map, and nothing accesses its memory any more.
-/

namespace AtomicSlotMap

open Library

variable {T K V E : Type} [Key K]

/-- Where a call on a guard stands. -/
def Pc.On (op : Op K) : Pc K V E → Prop
  | .waitForChunk _ next | .assertRefCount _ next | .assertVersion _ next =>
      next.settled = false ∧ next.On op
  | .unguardDec _ | .dropValue _ .unguarded | .pushLoad _ .unguarded | .pushStore _ _ .unguarded
  | .pushCas _ _ .unguarded => op.borrowsGuard = false
  | .cloneInc guard => op.borrowsGuard = true ∧ guard.owning = true
  | .ret (.cloned _) | .ret (.read _) => op.borrowsGuard = true
  | .ret .done | .unwinding => True
  | _ => False

/-- How many `Arc`s are moved into guards. -/
def ArcMove.toGuard : ArcMove → Nat
  | .given | .shared => 1
  | _ => 0

/-- How many `Arc`s are moved out of guards. -/
def ArcMove.fromGuard : ArcMove → Nat
  | .taken => 1
  | _ => 0

/-- Whether the call owns an `Arc` after a move. -/
def ArcMove.owned (before : Bool) : ArcMove → Bool
  | .nothing | .shared => before
  | .cloned | .taken => true
  | .given | .dropped => false

/-- The guards that own an `Arc`, forgotten ones included. -/
def Sys.owning (s : Sys T K V E) : Nat := (s.guards ++ s.forgotten).countP (·.owning)

namespace Sys

variable [DecidableEq T] [Fintype T] {dbg : Bool} {s s' : Sys T K V E} {t : T}
  {choice : Choice K V E} {op : Op K}

/-- A call on a guard starts so, by cases on the operation. -/
theorem on_of_call (found : s.call t op = some s') (about : op.guardId?.isSome)
    : (s'.pc t).On op := by
  cases op with
  | dropGuard id | forgetGuard id =>
      rw [call] at found
      split at found
      · cases found
      · obtain ⟨⟨guard, others⟩, _, rfl⟩ := Option.map_eq_some_iff.mp found
        rw [pc_goto_self]
        first | exact ⟨rfl, rfl⟩ | trivial
  | cloneGuard id =>
      obtain ⟨guard, first, rfl⟩ := Option.map_eq_some_iff.mp found
      rw [pc_goto_self]
      have named := List.find?_some first
      rw [Bool.and_eq_true] at named
      exact ⟨rfl, rfl, named.2⟩
  | derefGuard id =>
      obtain ⟨guard, _, rfl⟩ := Option.map_eq_some_iff.mp found
      dsimp only
      rw [pc_goto_self]
      exact Eq.refl true
  | _ => cases about

omit [Key K] in
theorem on_pushFreeIndex {idx : Nat} (drops : op.borrowsGuard = false)
    : (Pc.pushFreeIndex dbg idx .unguarded : Pc K V E).On op := by
  cases dbg with
  | false => exact ⟨rfl, drops⟩
  | true => exact ⟨rfl, rfl, rfl, drops⟩

/-- A call on a guard goes on so, by cases on where it stands. -/
theorem on_of_step (found : step dbg s t choice = some s') (working : (s.pc t).settled = false)
    (on : (s.pc t).On op)
    : (s'.pc t).On op := by
  cases about : s.pc t with
  | waitForChunk idx next =>
      rw [about] at on
      simp only [step, about] at found
      cases Choice.eq_of_onGo found
      split
      · rw [pc_goto_self]
        exact on.2
      · rw [about]
        exact on
  | assertRefCount idx next | assertVersion idx next =>
      rw [about] at on
      simp only [step, about] at found
      cases Choice.eq_of_onGo found
      split
      · rw [pc_goto_self]
        exact on.2
      · rw [pc_unwind_self]
        trivial
  | unguardDec guard =>
      rw [about] at on
      simp only [step, about] at found
      cases Choice.eq_of_onGo found
      rw [decRefCount]
      split
      · rw [pc_goto_self]
        exact ⟨rfl, on⟩
      · rw [pc_goto_self]
        trivial
  | dropValue idx after =>
      rw [about] at on
      simp only [step, about] at found
      cases after with
      | unguarded =>
          cases choice with
          | go =>
              cases found
              rw [pc_goto_self]
              exact on_pushFreeIndex on
          | panic =>
              cases found
              rw [pc_unwind_self]
              trivial
          | _ => cases found
      | _ => exact on.elim
  | pushLoad idx after =>
      rw [about] at on
      simp only [step, about] at found
      cases after with
      | unguarded =>
          cases Choice.eq_of_onGo found
          rw [pc_goto_self]
          exact on
      | _ => exact on.elim
  | pushStore idx old after =>
      rw [about] at on
      simp only [step, about] at found
      cases after with
      | unguarded =>
          cases Choice.eq_of_onGo found
          rw [pc_goto_self]
          exact on
      | _ => exact on.elim
  | pushCas idx old after =>
      rw [about] at on
      simp only [step, about] at found
      cases after with
      | unguarded =>
          rcases Choice.eq_of_onWeak found with ⟨_, rfl⟩ | rfl
          · rw [pushExchange, pc_goto_self]
            trivial
          · rw [pc_goto_self]
            exact on
      | _ => exact on.elim
  | cloneInc guard =>
      rw [about] at on
      simp only [step, about] at found
      cases Choice.eq_of_onGo found
      rw [cloneGuard]
      split
      · rw [pc_goto_self]
        exact on.1
      · rw [pc_unwind_self]
        trivial
  | idle | iterating | ret | unwinding =>
      rw [about] at working
      cases working
  | _ =>
      rw [about] at on
      exact on.elim

omit [DecidableEq T] [Fintype T] in
/-- A call that borrows a guard has a guard to borrow until it is about to end, by induction on the
program counter.
-/
theorem leaving_of_on {pc : Pc K V E} (on : pc.On op) (borrows : op.borrowsGuard = true)
    (fits : pc.Fits s) (guards : s.guards = [])
    : (∃ res, pc = .ret res) ∨ pc = .unwinding := by
  induction pc with
  | waitForChunk idx next ih =>
      rcases ih on.2 fits with ⟨_, rfl⟩ | rfl <;> cases on.1
  | assertRefCount idx next ih | assertVersion idx next ih =>
      rcases ih on.2 fits.2 with ⟨_, rfl⟩ | rfl <;> cases on.1
  | cloneInc guard =>
      change guard ∈ s.guards at fits
      rw [guards] at fits
      cases fits
  | ret res => exact Or.inl ⟨res, rfl⟩
  | unwinding => exact Or.inr rfl
  | unguardDec => cases borrows.symm.trans on
  | dropValue _ after | pushLoad _ after | pushStore _ _ after | pushCas _ _ after =>
      cases after with
      | unguarded => cases borrows.symm.trans on
      | _ => exact on.elim
  | _ => exact on.elim

-----------------------------------------------------------------------------------------
-- Calls
-----------------------------------------------------------------------------------------

/-- What a step does to the call of its activity. -/
inductive Calling (s : Sys T K V E) (t : T) (choice : Choice K V E) (s' : Sys T K V E) : Prop
  | works (working : (s.pc t).settled = false) (current : s'.current t = s.current t)
  | makes (op : Op K) (called : choice = .call op) (calls : (s.pc t).Calls op)
    (found : s.call t op = some s')
  | turns (about : s.pc t = .idle ∧ choice = .iterate ∨ ∃ currentIdx, s.pc t = .iterating currentIdx)
    (current : s'.current t = s.current t) (rests : (s'.pc t).Rests)
  | returns (res : Res K V E) (about : s.pc t = .ret res) (current : s'.current t = none)
    (rests : s'.pc t = res.rest)
  | unwinds (about : s.pc t = .unwinding) (current : s'.current t = none)
    (rests : s'.pc t = .idle)

/-- A step works on a call, makes or ends one, or there is none; by cases on where it stands. -/
theorem Tracked.calling (tracked : s.Tracked) (found : step dbg s t choice = some s')
    : s.Calling t choice s' := by
  have finishing (awake : ¬ (s.pc t).Rests) (event : Nat → HistoryEvent K V E) (pc : Pc K V E) :
      ((s.finish t event).goto t pc).current t = none := by
    obtain ⟨id, op, current, _⟩ := tracked.exists_running awake
    rw [finish, current]
    exact Function.update_self ..
  cases about : s.pc t with
  | idle =>
      cases choice with
      | call op =>
          obtain ⟨calls, made⟩ := call_of_step found
          exact .makes op rfl calls made
      | iterate =>
          simp only [step, about] at found
          cases found
          exact .turns (Or.inl ⟨about, rfl⟩) rfl (Or.inr ⟨0, pc_goto_self _ t _⟩)
      | _ =>
          simp only [step, about] at found
          cases found
  | iterating currentIdx =>
      cases choice with
      | call op =>
          obtain ⟨calls, made⟩ := call_of_step found
          exact .makes op rfl calls made
      | endIterate =>
          simp only [step, about] at found
          cases found
          exact .turns (Or.inr ⟨currentIdx, about⟩) rfl (Or.inl (pc_goto_self _ t _))
      | _ =>
          simp only [step, about] at found
          cases found
  | ret res =>
      simp only [step, about] at found
      cases Choice.eq_of_onGo found
      have awake : ¬ (s.pc t).Rests := by
        rw [about]
        exact (Pc.awake_of_busy rfl).2
      exact .returns res about (finishing awake _ _) (pc_goto_self _ t _)
  | unwinding =>
      simp only [step, about] at found
      cases Choice.eq_of_onGo found
      have awake : ¬ (s.pc t).Rests := by
        rw [about]
        rintro (rests | ⟨_, rests⟩) <;> cases rests
      exact .unwinds about (finishing awake _ _) (pc_goto_self _ t _)
  | _ =>
      have working : (s.pc t).settled = false := by
        rw [about]
        rfl
      exact .works working ((step_moves found).current_of_working working)

-----------------------------------------------------------------------------------------
-- Guards
-----------------------------------------------------------------------------------------

omit [Key K] in
omit [DecidableEq T] [Fintype T] in
/-- A guard that is taken from the others leaves the rest. -/
theorem owning_of_find? {id : Nat} {guard : Guard K V}
    (first : s.guards.find? (·.id == id) = some guard)
    : (s.guards.eraseP (·.id == id) ++ s.forgotten).countP (·.owning) + guard.owning.toNat
      = s.owning := by
  have same := ((perm_eraseP_of_find? first).append_right s.forgotten).countP_eq (·.owning)
  rw [owning, same, List.cons_append, List.countP_cons]
  cases guard.owning <;> rfl

/-- The guards that own an `Arc` are as many as before if none is made and none is dropped, by cases
on what the step does to the guards.
-/
theorem owning_eq (found : step dbg s t choice = some s')
    (getting
      : ∀ key getter, s.pc t = .acquireVersion key getter →
          (s.slots (KeyData.idx key)).version = KeyData.version key → getter.owning = false)
    (cloning
      : ∀ guard, s.pc t = .cloneInc guard →
          ¬ (s.slots (KeyData.idx guard.key)).refCount ≤ MAX_REFCOUNT)
    (dropping
      : ∀ id guard, s.pc t = .idle → choice = .call (.dropGuard id) →
          s.guards.find? (·.id == id) = some guard → guard.owning = false)
    : s'.owning = s.owning := by
  cases (step_moves found).hands with
  | kept guards forgotten _ => rw [owning, guards, forgotten, owning]
  | made guard guards forgotten _ _ source =>
      have borrowing : guard.owning = false := by
        rcases source with ⟨⟨getter, about, owning⟩, same⟩ | ⟨other, about, _, _, room⟩
        · exact owning.trans (getting _ getter about same)
        · exact absurd room (cloning other about)
      rw [owning, guards, forgotten, List.cons_append, List.countP_cons, borrowing]
      rfl
  | dropping id guard calls first guards forgotten _ goes began =>
      have called := eq_call_of_began found calls began (by rw [goes]; exact ⟨nofun, nofun⟩)
      have idle : s.pc t = .idle := by
        rcases calls with ⟨about, _⟩ | ⟨_, _, next⟩
        · exact about
        · cases next
      rw [owning, guards, forgotten, ← owning_of_find? first, dropping id guard idle called first]
      rfl
  | forgot id guard _ first guards forgotten _ _ _ =>
      rw [owning, guards, forgotten, ← owning_of_find? first, List.perm_middle.countP_eq,
        List.countP_cons]
      cases guard.owning <;> rfl

end Sys

namespace ArcMap

variable [DecidableEq T] {dbg : Bool} {m m' : ArcMap T K V E} {t : T} {choice : Choice K V E}
  {move : ArcMove} {s' : Sys T K V E}

-----------------------------------------------------------------------------------------
-- What a step does with owners
-----------------------------------------------------------------------------------------

/-- When a step does something with an `Arc`. -/
inductive Moved (m : ArcMap T K V E) (t : T) (choice : Choice K V E) : ArcMove → Prop
  | nothing (move : m.arcMove t choice = .nothing) : Moved m t choice .nothing
  | cloned (key : K) (about : m.map.pc t = .idle) (called : choice = .call (.get key true))
    : Moved m t choice .cloned
  | taken (id : Nat) (guard : Guard K V) (about : m.map.pc t = .idle)
    (called : choice = .call (.dropGuard id))
    (first : m.map.guards.find? (·.id == id) = some guard) (owning : guard.owning = true)
    : Moved m t choice .taken
  | given (key : K) (getter : Getter) (about : m.map.pc t = .acquireVersion key getter)
    (owning : getter.owning = true)
    (same : (m.map.slots (KeyData.idx key)).version = KeyData.version key)
    : Moved m t choice .given
  | shared (guard : Guard K V) (about : m.map.pc t = .cloneInc guard)
    (room : (m.map.slots (KeyData.idx guard.key)).refCount ≤ MAX_REFCOUNT)
    : Moved m t choice .shared
  | dropped (leaves : (∃ res, m.map.pc t = .ret res) ∨ m.map.pc t = .unwinding)
    (owned : m.owns t = true)
    : Moved m t choice .dropped

omit [DecidableEq T] in
/-- By cases on where the activity stands. -/
theorem moved (m : ArcMap T K V E) (t : T) (choice : Choice K V E)
    : m.Moved t choice (m.arcMove t choice) := by
  have idly (move : m.arcMove t choice = .nothing) : m.Moved t choice (m.arcMove t choice) := by
    rw [move]
    exact .nothing move
  cases about : m.map.pc t with
  | idle =>
      cases choice with
      | call op =>
          have move : m.arcMove t (.call op) = m.callMove op := by simp only [arcMove, about]
          cases op with
          | get key owning =>
              cases owning with
              | false => exact idly move
              | true => exact move ▸ .cloned key about rfl
          | dropGuard id =>
              rw [callMove] at move
              split at move
              · next guard first =>
                split at move
                · next owning => exact move ▸ .taken id guard about rfl first owning
                · exact idly move
              · exact idly move
          | _ => exact idly move
      | _ => exact idly (by simp only [arcMove, about])
  | acquireVersion key getter =>
      by_cases given : getter.owning
          ∧ (m.map.slots (KeyData.idx key)).version = KeyData.version key
      · rw [show m.arcMove t choice = .given by simp only [arcMove, about, if_pos given]]
        exact .given key getter about given.1 given.2
      · exact idly (by simp only [arcMove, about, if_neg given])
  | cloneInc guard =>
      by_cases room : (m.map.slots (KeyData.idx guard.key)).refCount ≤ MAX_REFCOUNT
      · rw [show m.arcMove t choice = .shared by simp only [arcMove, about, if_pos room]]
        exact .shared guard about room
      · exact idly (by simp only [arcMove, about, if_neg room])
  | ret res =>
      by_cases owned : m.owns t = true
      · rw [show m.arcMove t choice = .dropped by simp only [arcMove, about, if_pos owned]]
        exact .dropped (Or.inl ⟨res, about⟩) owned
      · exact idly (by simp only [arcMove, about, if_neg owned])
  | unwinding =>
      by_cases owned : m.owns t = true
      · rw [show m.arcMove t choice = .dropped by simp only [arcMove, about, if_pos owned]]
        exact .dropped (Or.inr about) owned
      · exact idly (by simp only [arcMove, about, if_neg owned])
  | _ => exact idly (by simp only [arcMove, about])

variable [Fintype T]

/-- The guards that own an `Arc` are the more by those that are given one, by cases on the move. -/
theorem Moved.owning_eq (moved : m.Moved t choice move)
    (found : step dbg m.map t choice = some s')
    : s'.owning + move.fromGuard = m.map.owning + move.toGuard := by
  cases moved with
  | nothing move =>
      refine Sys.owning_eq found ?_ ?_ ?_
      · intro key getter about same
        by_contra owning
        simp [arcMove, about, same, Bool.of_not_eq_false owning] at move
      · intro guard about room
        simp [arcMove, about, room] at move
      · intro id guard about called first
        by_contra owning
        subst called
        simp [arcMove, about, callMove, first, Bool.of_not_eq_false owning] at move
  | cloned key about called =>
      refine Sys.owning_eq found ?_ ?_ ?_
      · intro _ _ about'
        cases about.symm.trans about'
      · intro _ about'
        cases about.symm.trans about'
      · intro _ _ _ called'
        cases called.symm.trans called'
  | dropped leaves owned =>
      refine Sys.owning_eq found ?_ ?_ ?_
      · intro _ _ about
        rcases leaves with ⟨_, leaves⟩ | leaves <;> cases about.symm.trans leaves
      · intro _ about
        rcases leaves with ⟨_, leaves⟩ | leaves <;> cases about.symm.trans leaves
      · intro _ _ about
        rcases leaves with ⟨_, leaves⟩ | leaves <;> cases about.symm.trans leaves
  | taken id guard about called first owning =>
      subst called
      obtain ⟨_, made⟩ := Sys.call_of_step found
      rw [Sys.call] at made
      split at made
      · cases made
      · obtain ⟨_, taken, rfl⟩ := Option.map_eq_some_iff.mp made
        rw [Sys.takeGuard?, first] at taken
        cases taken
        have counted := Sys.owning_of_find? first
        rw [owning] at counted
        dsimp only
        rw [Sys.answer_eq]
        exact counted
  | given key getter about owning same =>
      simp only [step, about, Sys.acquireCheck, if_pos same] at found
      cases Choice.eq_of_onGo found
      rw [Sys.answer_eq]
      exact List.countP_cons_of_pos owning
  | shared guard about room =>
      simp only [step, about, Sys.cloneGuard, if_pos room] at found
      cases Choice.eq_of_onGo found
      rw [Sys.answer_eq]
      have clone : (Guard.mk m.map.guardIds guard.key true guard.pointee).owning = true := rfl
      exact List.countP_cons_of_pos clone

-----------------------------------------------------------------------------------------
-- Owners
-----------------------------------------------------------------------------------------

/-- The strong count is the number of owners. Calls own an `Arc` while they need one, and once no
handle is left only calls on guards go on, and only guards that own an `Arc` are left.
-/
structure Counted (m : ArcMap T K V E) : Prop where
  strong : m.strong = m.handles + m.map.owning + ∑ t, (m.owns t).toNat
  destroyed : m.destroyed = true ↔ m.strong = 0
  owners : ∀ t, m.owns t = true → m.map.current t ≠ none
  getting
    : ∀ t id key, m.map.current t = some (id, .get key true) → (m.map.pc t).settled = false →
        m.owns t = true
  on
    : ∀ t id op, m.map.current t = some (id, op) → op.guardId?.isSome → (m.map.pc t).On op
  lent
    : m.handles = 0 →
        (∀ t, m.borrows t = false) ∧ ∀ guard ∈ m.map.guards, guard.owning = true

omit [Key K] [DecidableEq T] in
theorem Counted.new : (ArcMap.new T K V E).Counted where
  strong := by simp [ArcMap.new, Sys.owning, Sys.withKey]
  destroyed := by simp [ArcMap.new]
  owners := nofun
  getting := nofun
  on := nofun
  lent := nofun

omit [Fintype T] in
@[simp] theorem map_after : (m.after t choice s').map = s' := by
  rw [after]
  split <;> rfl

omit [Fintype T] in
@[simp] theorem handles_after : (m.after t choice s').handles = m.handles := by
  rw [after]
  split <;> rfl

omit [Fintype T] in
/-- What the calls own after a step, by cases on its move. -/
theorem owns_after
    : (m.after t choice s').owns
      = Function.update m.owns t ((m.arcMove t choice).owned (m.owns t)) := by
  rw [after]
  cases m.arcMove t choice <;> first | rfl | exact (Function.update_eq_self t m.owns).symm

omit [Key K] [DecidableEq T] in
/-- A call that makes a guard with an `Arc` owns one. -/
theorem Counted.owns_of_acquire (counted : m.Counted) (tracked : m.map.Tracked) {key : K}
    {getter : Getter} (about : m.map.pc t = .acquireVersion key getter)
    (owning : getter.owning = true)
    : m.owns t = true := by
  cases getter with
  | next => cases owning
  | get owned =>
      cases owned with
      | false => cases owning
      | true =>
          obtain ⟨id, op, current, running⟩ := tracked.exists_running (t := t) (by
            rw [about]
            exact (Pc.awake_of_busy rfl).2)
          have serves := running.serves
          rw [about] at serves
          cases serves
          exact counted.getting t id key current (by rw [about]; rfl)

omit [Key K] [DecidableEq T] in
/-- A guard that is being cloned owns an `Arc`. -/
theorem Counted.owning_of_clone (counted : m.Counted) (tracked : m.map.Tracked)
    {guard : Guard K V} (about : m.map.pc t = .cloneInc guard)
    : guard.owning = true := by
  obtain ⟨id, op, current, running⟩ := tracked.exists_running (t := t) (by
    rw [about]
    exact (Pc.awake_of_busy rfl).2)
  have serves := running.serves
  rw [about] at serves
  cases serves
  have on := counted.on t id _ current rfl
  rw [about] at on
  exact on.2

/-- The count stays right, by cases on the move. -/
theorem Counted.strong_after (counted : m.Counted) (reachable : Sys.Reachable dbg m.map)
    (lends : m.lends choice = true) (found : step dbg m.map t choice = some s')
    : (m.after t choice s').strong
        = m.handles + s'.owning + ∑ u, ((m.after t choice s').owns u).toNat
      ∧ ((m.after t choice s').destroyed = true ↔ (m.after t choice s').strong = 0) := by
  have tracked := Sys.tracked_of_run reachable.run
  obtain ⟨free, inv⟩ := reachable.inv
  have moved := m.moved t choice
  have guards := moved.owning_eq found
  have calls := Library.total_update m.owns t ((m.arcMove t choice).owned (m.owns t)) Bool.toNat
  have strong := counted.strong
  have destroyed := counted.destroyed
  have resting (idle : m.map.pc t = .idle) : (m.owns t).toNat = 0 := by
    cases owned : m.owns t with
    | false => rfl
    | true => exact absurd (tracked.current_eq_none (Or.inl idle)) (counted.owners t owned)
  rw [owns_after]
  rw [after]
  generalize m.arcMove t choice = move at moved guards calls ⊢
  cases moved with
  | nothing =>
      change _ + 0 = _ + 0 at guards
      change _ + _ = _ + (m.owns t).toNat at calls
      exact ⟨by change m.strong = _; omega, destroyed⟩
  | cloned key about called =>
      change _ + 0 = _ + 0 at guards
      change _ + _ = _ + 1 at calls
      have none := resting about
      subst called
      have held : 0 < m.handles := by simpa [ArcMap.lends, Op.guardId?] using lends
      refine ⟨by change m.strong + 1 = _; omega, ?_⟩
      change m.destroyed = true ↔ m.strong + 1 = 0
      rw [destroyed]
      omega
  | taken id guard about called first owning =>
      change _ + 1 = _ + 0 at guards
      change _ + _ = _ + 1 at calls
      have none := resting about
      exact ⟨by change m.strong = _; omega, destroyed⟩
  | given key getter about owning same =>
      change _ + 0 = _ + 1 at guards
      change _ + _ = _ + 0 at calls
      have one : (m.owns t).toNat = 1 := by
        rw [counted.owns_of_acquire tracked about owning]
        rfl
      exact ⟨by change m.strong = _; omega, destroyed⟩
  | shared guard about room =>
      change _ + 0 = _ + 1 at guards
      change _ + _ = _ + (m.owns t).toNat at calls
      have member : guard ∈ m.map.guards := by
        have fits := inv.fits t
        rw [about] at fits
        exact fits
      have held : 0 < m.map.owning :=
        List.countP_pos_iff.mpr ⟨guard, List.mem_append_left _ member,
          counted.owning_of_clone tracked about⟩
      refine ⟨by change m.strong + 1 = _; omega, ?_⟩
      change m.destroyed = true ↔ m.strong + 1 = 0
      rw [destroyed]
      omega
  | dropped leaves owned =>
      change _ + 0 = _ + 0 at guards
      change _ + _ = _ + 0 at calls
      have one : (m.owns t).toNat = 1 := by
        rw [owned]
        rfl
      refine ⟨by change m.strong - 1 = _; omega, ?_⟩
      change (m.destroyed || m.strong == 1) = true ↔ m.strong - 1 = 0
      rw [Bool.or_eq_true, destroyed, beq_iff_eq]
      omega

omit [Fintype T] in
/-- The others own what they did. -/
theorem owns_after_of_ne {other : T} (apart : other ≠ t)
    : (m.after t choice s').owns other = m.owns other := by
  rw [owns_after]
  exact Function.update_of_ne apart _ _

omit [Fintype T] in
/-- An activity that starts a call owns the `Arc` that the call needs. -/
theorem owns_after_of_get {key : K} (about : m.map.pc t = .idle)
    : (m.after t (.call (.get key true)) s').owns t = true := by
  have move : m.arcMove t (.call (.get key true)) = .cloned := by
    simp only [arcMove, about]
    rfl
  rw [owns_after, move]
  exact Function.update_self ..

omit [Fintype T] in
theorem owns_after_of_drop {id : Nat} {guard : Guard K V} (about : m.map.pc t = .idle)
    (first : m.map.guards.find? (·.id == id) = some guard) (owning : guard.owning = true)
    : (m.after t (.call (.dropGuard id)) s').owns t = true := by
  have move : m.arcMove t (.call (.dropGuard id)) = .taken := by
    simp only [arcMove, about, callMove, first, if_pos owning]
  rw [owns_after, move]
  exact Function.update_self ..

omit [Fintype T] in
/-- An activity in a call keeps its `Arc`, unless it moves it into a guard. -/
theorem owns_after_of_working (working : (m.map.pc t).settled = false)
    (moved : m.Moved t choice (m.arcMove t choice))
    : (m.after t choice s').owns t = m.owns t ∨ m.arcMove t choice = .given := by
  rw [owns_after, Function.update_self]
  generalize m.arcMove t choice = move at moved ⊢
  cases moved with
  | nothing | shared => exact Or.inl rfl
  | given => exact Or.inr rfl
  | cloned _ about | taken _ _ about =>
      rw [about] at working
      cases working
  | dropped leaves =>
      rcases leaves with ⟨_, about⟩ | about <;>
        · rw [about] at working
          cases working

omit [Fintype T] in
/-- An activity that has ended its call owns nothing. -/
theorem owns_after_of_leaving
    (leaves : (∃ res, m.map.pc t = .ret res) ∨ m.map.pc t = .unwinding)
    : (m.after t choice s').owns t = false := by
  have move : m.arcMove t choice = if m.owns t then .dropped else .nothing := by
    rcases leaves with ⟨_, about⟩ | about <;> simp only [arcMove, about]
  rw [owns_after, Function.update_self, move]
  cases m.owns t <;> rfl

/-- A call that has made its guard is about to return. -/
theorem settled_of_given (moved : m.Moved t choice .given)
    (found : step dbg m.map t choice = some s')
    : (s'.pc t).settled = true := by
  cases moved with
  | given key getter about owning same =>
      simp only [step, about, Sys.acquireCheck, if_pos same] at found
      cases Choice.eq_of_onGo found
      rw [Sys.pc_goto_self]
      rfl

/-- Who owns an `Arc` is in a call, by cases on what the step does to the call. -/
theorem Counted.owners_after (counted : m.Counted) (reachable : Sys.Reachable dbg m.map)
    (found : step dbg m.map t choice = some s') (other : T)
    (owns : (m.after t choice s').owns other = true)
    : s'.current other ≠ none := by
  by_cases same : other = t
  · subst same
    have moved := m.moved other choice
    cases (Sys.tracked_of_run reachable.run).calling found with
    | works working current =>
        rw [current]
        refine counted.owners other ?_
        rcases owns_after_of_working working moved with same | given
        · exact same ▸ owns
        · rw [owns_after, Function.update_self, given] at owns
          cases owns
    | makes op _ _ called =>
        rw [Sys.current_of_call called]
        nofun
    | turns about current _ =>
        rw [current]
        refine counted.owners other ?_
        have idle : m.arcMove other choice = .nothing := by
          rcases about with ⟨about, rfl⟩ | ⟨_, about⟩ <;> simp only [arcMove, about]
        rw [owns_after, Function.update_self, idle] at owns
        exact owns
    | returns res about =>
        rw [owns_after_of_leaving (Or.inl ⟨res, about⟩)] at owns
        cases owns
    | unwinds about =>
        rw [owns_after_of_leaving (Or.inr about)] at owns
        cases owns
  · rw [owns_after_of_ne same] at owns
    rw [(Sys.step_moves found).current_of_ne same]
    exact counted.owners other owns

/-- `get_owning` owns an `Arc` until it returns, by cases on what the step does to the call. -/
theorem Counted.getting_after (counted : m.Counted) (reachable : Sys.Reachable dbg m.map)
    (found : step dbg m.map t choice = some s') (other : T) (id : Nat) (key : K)
    (gets : s'.current other = some (id, .get key true))
    (working : (s'.pc other).settled = false)
    : (m.after t choice s').owns other = true := by
  by_cases same : other = t
  · subst same
    cases (Sys.tracked_of_run reachable.run).calling found with
    | works before current =>
        have owned := counted.getting other id key (current ▸ gets) before
        rcases owns_after_of_working before (m.moved other choice) with same | given
        · rw [same]
          exact owned
        · have settled := settled_of_given (given ▸ m.moved other choice) found
          rw [working] at settled
          cases settled
    | makes op called calls made =>
        subst called
        rw [Sys.current_of_call made] at gets
        cases gets
        rcases calls with ⟨idle, _⟩ | ⟨_, _, next⟩
        · exact owns_after_of_get idle
        · cases next
    | turns _ _ rests =>
        rcases rests with rests | ⟨_, rests⟩ <;>
          · rw [rests] at working
            cases working
    | returns _ _ ended | unwinds _ ended =>
        rw [ended] at gets
        cases gets
  · rw [owns_after_of_ne same]
    rw [(Sys.step_moves found).current_of_ne same] at gets
    rw [(Sys.step_moves found).others other same] at working
    exact counted.getting other id key gets working

/-- A call on a guard stands where such calls do, by cases on what the step does to the call. -/
theorem Counted.on_after (counted : m.Counted) (reachable : Sys.Reachable dbg m.map)
    (found : step dbg m.map t choice = some s') (other : T) (id : Nat) (op : Op K)
    (current : s'.current other = some (id, op)) (about : op.guardId?.isSome)
    : (s'.pc other).On op := by
  by_cases same : other = t
  · subst same
    have tracked := Sys.tracked_of_run reachable.run
    cases tracked.calling found with
    | works before same =>
        exact Sys.on_of_step found before (counted.on other id op (same ▸ current) about)
    | makes op' _ _ made =>
        rw [Sys.current_of_call made] at current
        cases current
        exact Sys.on_of_call made about
    | turns resting same _ =>
        have rests : (m.map.pc other).Rests := by
          rcases resting with ⟨idle, _⟩ | iterating
          · exact Or.inl idle
          · exact Or.inr iterating
        rw [same, tracked.current_eq_none rests] at current
        cases current
    | returns _ _ ended | unwinds _ ended =>
        rw [ended] at current
        cases current
  · rw [(Sys.step_moves found).current_of_ne same] at current
    rw [(Sys.step_moves found).others other same]
    exact counted.on other id op current about

-----------------------------------------------------------------------------------------
-- Without handles
-----------------------------------------------------------------------------------------

omit [Key K] [DecidableEq T] [Fintype T] in
/-- A call that borrows no handle is on a guard, and owns an `Arc` if it does not borrow that. -/
theorem guarding_of_not_borrows (unborrowed : m.borrows t = false) {id : Nat} {op : Op K}
    (current : m.map.current t = some (id, op))
    : op.guardId?.isSome ∧ (op.borrowsGuard = false → m.owns t = true) := by
  simp only [borrows, current] at unborrowed
  cases op <;> simp_all [Op.guardId?, Op.borrowsGuard]

omit [Key K] [DecidableEq T] [Fintype T] in
theorem not_borrows_of_current {id : Nat} {op : Op K} (current : m.map.current t = some (id, op))
    (about : op.guardId?.isSome) (owned : op.borrowsGuard = false → m.owns t = true)
    : m.borrows t = false := by
  simp only [borrows, current, Option.isNone_eq_false_iff.mpr about, Bool.false_or]
  cases drops : op.borrowsGuard with
  | true => rfl
  | false => simp [owned drops]

omit [Key K] [DecidableEq T] [Fintype T] in
/-- An activity that borrows no handle and executes no call is idle. -/
theorem idle_of_not_borrows (unborrowed : m.borrows t = false) (current : m.map.current t = none)
    : m.map.pc t = .idle := by
  simp only [borrows, current] at unborrowed
  exact Pc.eq_idle (by simpa using unborrowed)

omit [Key K] [DecidableEq T] [Fintype T] in
theorem not_borrows_of_idle (idle : m.map.pc t = .idle) (current : m.map.current t = none)
    : m.borrows t = false := by
  simp only [borrows, current, idle]
  rfl

/-- Without handles only guards that own an `Arc` are made. -/
theorem Counted.lent_guards_after (counted : m.Counted) (reachable : Sys.Reachable dbg m.map)
    (found : step dbg m.map t choice = some s') (none : m.handles = 0) (guard : Guard K V)
    (member : guard ∈ s'.guards)
    : guard.owning = true := by
  obtain ⟨unborrowed, owning⟩ := counted.lent none
  cases (Sys.step_moves found).hands with
  | kept guards => exact owning guard (guards ▸ member)
  | made new guards _ _ _ source =>
      rw [guards] at member
      rcases List.mem_cons.mp member with rfl | before
      · rcases source with ⟨⟨getter, about, _⟩, _⟩ | ⟨_, _, _, owning, _⟩
        · obtain ⟨id, op, current, _⟩ :=
            (Sys.tracked_of_run reachable.run).exists_running (t := t) (by
              rw [about]
              exact (Pc.awake_of_busy rfl).2)
          have on := counted.on t id op current (guarding_of_not_borrows (unborrowed t) current).1
          rw [about] at on
          exact on.elim
        · exact owning
      · exact owning guard before
  | dropping _ _ _ _ guards | forgot _ _ _ _ guards =>
      rw [guards] at member
      exact owning guard (List.mem_of_mem_eraseP member)

/-- Without handles none is borrowed again, by cases on what the step does to the call. -/
theorem Counted.lent_calls_after (counted : m.Counted) (reachable : Sys.Reachable dbg m.map)
    (lends : m.lends choice = true) (found : step dbg m.map t choice = some s') (none : m.handles = 0)
    : (m.after t choice s').borrows t = false := by
  obtain ⟨unborrowed, owning⟩ := counted.lent none
  have tracked := Sys.tracked_of_run reachable.run
  have resting (rests : (m.map.pc t).Rests) : m.map.pc t = .idle :=
    idle_of_not_borrows (unborrowed t) (tracked.current_eq_none rests)
  cases tracked.calling found with
  | works working current =>
      cases call : m.map.current t with
      | none =>
          rw [idle_of_not_borrows (unborrowed t) call] at working
          cases working
      | some running =>
          obtain ⟨id, op⟩ := running
          obtain ⟨about, owned⟩ := guarding_of_not_borrows (unborrowed t) call
          refine not_borrows_of_current (by rw [map_after, current, call]) about fun drops => ?_
          have moved := m.moved t choice
          rcases owns_after_of_working working moved with same | given
          · exact same ▸ owned drops
          · rw [given] at moved
            cases moved with
            | given key getter stands =>
                have on := counted.on t id op call about
                rw [stands] at on
                exact on.elim
  | makes op called calls made =>
      subst called
      have about : op.guardId?.isSome := by simpa [ArcMap.lends, none] using lends
      have idle := resting calls.rests
      refine not_borrows_of_current (by rw [map_after, Sys.current_of_call made]) about
        fun drops => ?_
      cases op with
      | dropGuard id =>
          rw [Sys.call] at made
          split at made
          · cases made
          · obtain ⟨_, taken, _⟩ := Option.map_eq_some_iff.mp made
            obtain ⟨guard, first, _⟩ := Option.map_eq_some_iff.mp taken
            exact owns_after_of_drop idle first (owning guard (List.mem_of_find?_eq_some first))
      | cloneGuard | forgetGuard | derefGuard => cases drops
      | _ => cases about
  | turns about =>
      rcases about with ⟨_, rfl⟩ | iterating
      · simp [ArcMap.lends, none] at lends
      · obtain ⟨_, iterating⟩ := iterating
        cases iterating.symm.trans (resting (Or.inr ⟨_, iterating⟩))
  | returns res about current rests =>
      refine not_borrows_of_idle ?_ (by rw [map_after, current])
      obtain ⟨id, op, running, _⟩ := tracked.exists_running (t := t) (by
        rw [about]
        exact (Pc.awake_of_busy rfl).2)
      have on := counted.on t id op running (guarding_of_not_borrows (unborrowed t) running).1
      rw [about] at on
      rw [map_after, rests]
      cases res with
      | next => exact on.elim
      | _ => rfl
  | unwinds _ current rests =>
      exact not_borrows_of_idle (by rw [map_after, rests]) (by rw [map_after, current])

/-- The others borrow what they did. -/
theorem borrows_after_of_ne (found : step dbg m.map t choice = some s') {other : T}
    (apart : other ≠ t)
    : (m.after t choice s').borrows other = m.borrows other := by
  have moves := Sys.step_moves found
  rw [borrows, map_after, moves.current_of_ne apart, moves.others other apart,
    owns_after_of_ne apart]
  rfl

/-- A step of the map keeps the owners. -/
theorem Counted.run (counted : m.Counted) (reachable : Sys.Reachable dbg m.map)
    (lends : m.lends choice = true) (found : step dbg m.map t choice = some s')
    : (m.after t choice s').Counted where
  strong := by
    rw [map_after, handles_after]
    exact (counted.strong_after reachable lends found).1
  destroyed := (counted.strong_after reachable lends found).2
  owners := by
    rw [map_after]
    exact counted.owners_after reachable found
  getting := by
    rw [map_after]
    exact counted.getting_after reachable found
  on := by
    rw [map_after]
    exact counted.on_after reachable found
  lent := by
    rw [map_after, handles_after]
    intro none
    refine ⟨fun other => ?_, counted.lent_guards_after reachable found none⟩
    by_cases same : other = t
    · subst same
      exact counted.lent_calls_after reachable lends found none
    · rw [borrows_after_of_ne found same]
      exact (counted.lent none).1 other

/-- Users who clone or release a handle keep the owners. -/
theorem Counted.next (counted : m.Counted) (reachable : Sys.Reachable dbg m.map)
    (next : Next dbg m m')
    : m'.Counted := by
  have strong := counted.strong
  have destroyed := counted.destroyed
  cases next with
  | run t choice s' lends _ found => exact counted.run reachable lends found
  | clone held =>
      refine ⟨by dsimp only; omega, ?_, counted.owners, counted.getting, counted.on, ?_⟩
      · dsimp only
        rw [destroyed]
        omega
      · intro none
        cases none
  | release held unborrowed =>
      refine ⟨?_, ?_, counted.owners, counted.getting, counted.on, ?_⟩
      · change m.strong - 1 = m.handles - 1 + m.map.owning + ∑ t, (m.owns t).toNat
        omega
      · change (m.destroyed || m.strong == 1) = true ↔ m.strong - 1 = 0
        rw [Bool.or_eq_true, destroyed, beq_iff_eq]
        omega
      · intro none
        change m.handles - 1 = 0 at none
        exact unborrowed (by omega)

/-- What the users of the map do is a run of the map. -/
theorem reachable_map_of_next (reachable : Sys.Reachable dbg m.map) (next : Next dbg m m')
    : Sys.Reachable dbg m'.map := by
  cases next with
  | run t choice s' _ within found =>
      rw [map_after]
      exact reachable.tail ⟨t, choice, within, found⟩
  | clone | release => exact reachable

/-- The strong count is right in every run, by induction on the run. -/
theorem Reachable.counted (reachable : Reachable dbg m)
    : Sys.Reachable dbg m.map ∧ m.Counted := by
  induction reachable with
  | refl => exact ⟨.refl, .new⟩
  | tail _ next ih => exact ⟨reachable_map_of_next ih.1 next, ih.2.next ih.1 next⟩

-----------------------------------------------------------------------------------------
-- The last owner
-----------------------------------------------------------------------------------------

omit [Key K] [DecidableEq T] in
/-- Without an `Arc` there are no guards, and those that were forgotten owned none. -/
theorem Counted.guards_eq_nil (counted : m.Counted) (gone : m.strong = 0)
    : m.map.guards = [] ∧ ∀ guard ∈ m.map.forgotten, guard.owning = false := by
  have strong := counted.strong
  have owning : m.map.owning = 0 := by omega
  have none := List.countP_eq_zero.mp owning
  refine ⟨List.eq_nil_iff_forall_not_mem.mpr fun guard member => ?_, fun guard member => ?_⟩
  · exact none guard (List.mem_append_left _ member)
      ((counted.lent (by omega)).2 guard member)
  · exact Bool.of_not_eq_true (none guard (List.mem_append_right _ member))

/-- Without an `Arc` every activity is between calls or about to leave one. -/
theorem Counted.leaving (counted : m.Counted) (reachable : Sys.Reachable dbg m.map)
    (gone : m.strong = 0) (t : T)
    : m.map.pc t = .idle ∨ (∃ res, m.map.pc t = .ret res) ∨ m.map.pc t = .unwinding := by
  obtain ⟨free, inv⟩ := reachable.inv
  have strong := counted.strong
  have unborrowed := (counted.lent (by omega)).1 t
  cases current : m.map.current t with
  | none => exact Or.inl (idle_of_not_borrows unborrowed current)
  | some running =>
      obtain ⟨id, op⟩ := running
      obtain ⟨about, owned⟩ := guarding_of_not_borrows unborrowed current
      have borrows : op.borrowsGuard = true := by
        by_contra drops
        have one : (m.owns t).toNat ≤ ∑ u, (m.owns u).toNat :=
          Finset.single_le_sum (fun u _ => Nat.zero_le (m.owns u).toNat) (Finset.mem_univ t)
        rw [owned (Bool.of_not_eq_true drops)] at one
        change 1 ≤ _ at one
        omega
      refine Or.inr ?_
      exact Sys.leaving_of_on (counted.on t id op current about) borrows (inv.fits t)
        (counted.guards_eq_nil gone).1

/-- Without an `Arc` no step accesses the memory of the map. -/
theorem Counted.memoryEffects_eq_nil (counted : m.Counted) (reachable : Sys.Reachable dbg m.map)
    (gone : m.strong = 0) (lends : m.lends choice = true) (found : step dbg m.map t choice = some s')
    : m.map.memoryEffects t choice = [] := by
  have strong := counted.strong
  have guards := (counted.guards_eq_nil gone).1
  rcases counted.leaving reachable gone t with about | ⟨res, about⟩ | about
  · simp only [step, about] at found
    cases choice with
    | call op =>
        obtain ⟨_, found⟩ := Option.ite_none_left_eq_some.mp found
        have about : op.guardId?.isSome := by
          simpa [ArcMap.lends, show m.handles = 0 by omega] using lends
        cases op with
        | dropGuard | forgetGuard =>
            simp [Sys.call, Sys.takeGuard?, guards] at found
        | cloneGuard | derefGuard => simp [Sys.call, guards] at found
        | _ => cases about
    | iterate =>
        simp [ArcMap.lends, show m.handles = 0 by omega] at lends
    | _ => cases found
  · simp only [Sys.memoryEffects, about]
  · simp only [Sys.memoryEffects, about]

end ArcMap

open ArcMap in
/-- In every run the strong count is the number of handles, of owning guards, forgotten ones
included, and of calls that were given an `Arc`, and the map is destroyed if and only if it is zero.
Then there are no guards, no step accesses the memory of the map any more, each value has been
dropped once, unless its key was removed while a guard on it had been forgotten, and each buffer has
been deallocated once.
-/
theorem destroyed_with_last_owner [DecidableEq T] [Fintype T] {dbg : Bool} {m : ArcMap T K V E}
    (reachable : Reachable dbg m)
    : m.strong = m.handles + m.map.owning + ∑ t, (m.owns t).toNat
      ∧ (m.destroyed = true ↔ m.strong = 0)
      ∧ (m.destroyed = true →
          m.map.guards = []
          ∧ (∀ t choice, m.lends choice = true → (step dbg m.map t choice).isSome →
              m.map.memoryEffects t choice = [])
          ∧ (∀ actor idx stored, .wrote actor idx stored ∈ m.map.trace →
              (m.map.totalDrops stored.serial = 1 ∧ ¬ m.map.Stranded stored)
              ∨ (m.map.totalDrops stored.serial = 0 ∧ m.map.Stranded stored))
          ∧ ∀ buffer < m.map.buffers, m.map.totalFrees buffer = 1) := by
  obtain ⟨ran, counted⟩ := reachable.counted
  obtain ⟨free, inv⟩ := ran.inv
  refine ⟨counted.strong, counted.destroyed, fun destroyed => ?_⟩
  have gone := counted.destroyed.mp destroyed
  have guards := (counted.guards_eq_nil gone).1
  have settled : m.map.Settled := fun t => by
    rcases counted.leaving ran gone t with about | ⟨_, about⟩ | about <;>
      · rw [about]
        rfl
  refine ⟨guards, fun t choice lends found => ?_, fun actor idx stored written => ?_,
    fun buffer made => ?_⟩
  · obtain ⟨s', found⟩ := Option.isSome_iff_exists.mp found
    exact counted.memoryEffects_eq_nil ran gone lends found
  · exact inv.totalDrops ran.placed settled guards written
  · exact (Sys.buffered_of_run ran.run).totalFrees settled made

/-- A single activity inserts a value and gets an owning guard on it, gives up its handle, reads
through the guard and drops it.
-/
def outliveHandle : List (ArcAction Unit UInt64 Nat Empty) :=
  insertAndGet.map (fun (t, choice) => .run t choice)
    ++ [
      .run () .go, .release, .run () (.call (.derefGuard 0)), .run () .go,
      .run () (.call (.dropGuard 0)), .run () .go, .run () .go, .run () .go
    ]

/-- After that run the map has been destroyed, with the value and the buffer. -/
theorem destroyed_with_last_owner_outliveHandle
    : ∃ m : ArcMap Unit UInt64 Nat Empty,
        m.destroyed = true ∧ m.map.totalDrops 3 = 1 ∧ m.map.totalFrees 0 = 1 := by
  have found : (outliveHandle.foldlM (ArcMap.perform true) (.new Unit UInt64 Nat Empty)).map
      (fun m => (decide (.wrote () 0 ⟨3, 7⟩ ∈ m.map.trace), m.map.totalDrops 3, m.strong,
        m.map.buffers))
      = some (true, 1, 0, 1) := by decide +kernel
  obtain ⟨m, reached, same⟩ := Option.map_eq_some_iff.mp found
  simp only [Prod.mk.injEq, decide_eq_true_eq] at same
  obtain ⟨written, once, none, buffers⟩ := same
  obtain ⟨_, destroyed, final⟩ := destroyed_with_last_owner (.of_actions .refl reached)
  obtain ⟨_, _, _, freed⟩ := final (destroyed.mpr none)
  exact ⟨m, destroyed.mpr none, once, freed 0 (by omega)⟩

end AtomicSlotMap
