import AtomicSlotMap.Implementation.Runs

/-! The map behind an `Arc`. Users hold handles to it, owning guards hold one each, and calls that
were given one own it until they move it into a guard or return. Who gives up the last one runs the
destructor of the map.
-/

namespace AtomicSlotMap

variable {T K V E : Type} [Key K]

/-- `Arc<AtomicSlotMap>`. -/
structure ArcMap (T K V E : Type) where
  map : Sys T K V E
  /-- The strong count. -/
  strong : Nat
  /-- The `Arc`s that users hold. -/
  handles : Nat
  /-- Whether the call of an activity owns an `Arc`. -/
  owns : T → Bool
  /-- Whether the destructor of the map has run. -/
  destroyed : Bool

/-- What a step does with `Arc`s. -/
inductive ArcMove
  | nothing
  /-- `get_owning` clones its caller's one. -/
  | cloned
  /-- The call that drops an owning guard has the one of the guard. -/
  | taken
  /-- `OwningSlotGuard::new` moves its one into the guard. -/
  | given
  /-- `OwningSlotGuard::clone` clones the one of the guard. -/
  | shared
  /-- The call that owns one ends. -/
  | dropped

/-- The steps by what is chosen in them. -/
inductive ArcAction (T K V E : Type)
  | run (t : T) (choice : Choice K V E)
  | clone
  | release

/-- The guard that an operation is called on. -/
def Op.guardId? : Op K → Option Nat
  | .dropGuard id | .cloneGuard id | .forgetGuard id | .derefGuard id => some id
  | _ => none

/-- Whether an operation borrows a guard, and the map through it. -/
def Op.borrowsGuard : Op K → Bool
  | .cloneGuard _ | .forgetGuard _ | .derefGuard _ => true
  | _ => false

namespace ArcMap

/-- `Arc::new(AtomicSlotMap::with_key())`. -/
def new (T K V E : Type) : ArcMap T K V E where
  map := .withKey T K V E
  strong := 1
  handles := 1
  owns := fun _ => false
  destroyed := false

/-- `Arc::drop`: the last one destroys the map. -/
def decrement (m : ArcMap T K V E) : ArcMap T K V E :=
  { m with strong := m.strong - 1, destroyed := m.destroyed || m.strong == 1 }

/-- What a call does with `Arc`s when it starts. -/
def callMove (m : ArcMap T K V E) : Op K → ArcMove
  | .get _ owning => if owning then .cloned else .nothing
  | .dropGuard id =>
      match m.map.guards.find? (·.id == id) with
      | some guard => if guard.owning then .taken else .nothing
      | none => .nothing
  | _ => .nothing

/-- What a step of activity `t` does with `Arc`s. -/
def arcMove (m : ArcMap T K V E) (t : T) (choice : Choice K V E) : ArcMove :=
  match m.map.pc t with
  | .idle =>
      match choice with
      | .call op => m.callMove op
      | _ => .nothing
  | .acquireVersion key getter =>
      if getter.owning ∧ (m.map.slots (KeyData.idx key)).version = KeyData.version key then .given
      else .nothing
  | .cloneInc guard =>
      if (m.map.slots (KeyData.idx guard.key)).refCount ≤ MAX_REFCOUNT then .shared else .nothing
  | .ret _ | .unwinding => if m.owns t then .dropped else .nothing
  | _ => .nothing

/-- Whether a choice is possible: a call on the map and an iterator borrow a handle. -/
def lends (m : ArcMap T K V E) : Choice K V E → Bool
  | .call op => op.guardId?.isSome || 0 < m.handles
  | .iterate => 0 < m.handles
  | _ => true

/-- Whether an activity borrows a handle: it has an iterator, it is in a call on the map, or it drops
a guard that does not own an `Arc`.
-/
def borrows (m : ArcMap T K V E) (t : T) : Bool :=
  match m.map.current t with
  | none => !(m.map.pc t).idle?
  | some (_, op) => !op.borrowsGuard && (op.guardId?.isNone || !m.owns t)

section

variable [DecidableEq T]

/-- A step of the map, with what it does with `Arc`s. -/
def after (m : ArcMap T K V E) (t : T) (choice : Choice K V E) (s' : Sys T K V E)
    : ArcMap T K V E :=
  match m.arcMove t choice with
  | .nothing => { m with map := s' }
  | .cloned =>
      { m with map := s', strong := m.strong + 1, owns := Function.update m.owns t true }
  | .taken => { m with map := s', owns := Function.update m.owns t true }
  | .given => { m with map := s', owns := Function.update m.owns t false }
  | .shared => { m with map := s', strong := m.strong + 1 }
  | .dropped => { m with map := s', owns := Function.update m.owns t false }.decrement

variable [Fintype T]

/-- The steps. The last handle is only given up when nobody borrows it. -/
inductive Next (dbg : Bool) (m : ArcMap T K V E) : ArcMap T K V E → Prop
  | run (t : T) (choice : Choice K V E) (s' : Sys T K V E) (lends : m.lends choice = true)
    (within : m.map.Within t) (found : step dbg m.map t choice = some s')
    : Next dbg m (m.after t choice s')
  | clone (held : 0 < m.handles)
    : Next dbg m { m with strong := m.strong + 1, handles := m.handles + 1 }
  | release (held : 0 < m.handles)
    (unborrowed
      : m.handles = 1 →
          (∀ t, m.borrows t = false) ∧ ∀ guard ∈ m.map.guards, guard.owning = true)
    : Next dbg m { m with handles := m.handles - 1 }.decrement

/-- What is reachable from a new map behind an `Arc`. -/
def Reachable (dbg : Bool) (m : ArcMap T K V E) : Prop :=
  Relation.ReflTransGen (Next dbg) (new T K V E) m

/-- A step with what is chosen in it, if it is possible. -/
def perform (dbg : Bool) (m : ArcMap T K V E) : ArcAction T K V E → Option (ArcMap T K V E)
  | .run t choice =>
      if m.lends choice && m.map.within? t then
        (step dbg m.map t choice).map fun s' => m.after t choice s'
      else none
  | .clone =>
      if 0 < m.handles then some { m with strong := m.strong + 1, handles := m.handles + 1 }
      else none
  | .release =>
      if 0 < m.handles
          ∧ (m.handles = 1 →
              (∀ t, m.borrows t = false) ∧ ∀ guard ∈ m.map.guards, guard.owning = true) then
        some { m with handles := m.handles - 1 }.decrement
      else none

/-- A possible step is one, by cases on what it is. -/
theorem next_of_perform {dbg : Bool} {m m' : ArcMap T K V E} {action : ArcAction T K V E}
    (found : m.perform dbg action = some m')
    : m.Next dbg m' := by
  cases action with
  | run t choice =>
      simp only [perform, Option.ite_none_right_eq_some, Bool.and_eq_true] at found
      obtain ⟨⟨lends, within⟩, found⟩ := found
      obtain ⟨s', step, rfl⟩ := Option.map_eq_some_iff.mp found
      exact .run t choice s' lends (Sys.within_of_within? within) step
  | clone =>
      simp only [perform, Option.ite_none_right_eq_some] at found
      obtain ⟨held, found⟩ := found
      cases found
      exact .clone held
  | release =>
      simp only [perform, Option.ite_none_right_eq_some] at found
      obtain ⟨⟨held, unborrowed⟩, found⟩ := found
      cases found
      exact .release held unborrowed

/-- What a list of choices leads to is reachable, by induction on the list. -/
theorem Reachable.of_actions {dbg : Bool} {m m' : ArcMap T K V E}
    {actions : List (ArcAction T K V E)} (reachable : Reachable dbg m)
    (found : actions.foldlM (perform dbg) m = some m')
    : Reachable dbg m' := by
  induction actions generalizing m with
  | nil =>
      cases found
      exact reachable
  | cons action actions ih =>
      rw [List.foldlM_cons] at found
      obtain ⟨middle, first, rest⟩ := Option.bind_eq_some_iff.mp found
      exact ih (reachable.tail (next_of_perform first)) rest

end

end ArcMap

end AtomicSlotMap
