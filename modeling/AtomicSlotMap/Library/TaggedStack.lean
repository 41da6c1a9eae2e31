import AtomicSlotMap.Library.Linearizability
import AtomicSlotMap.Library.LinkedChain
import Mathlib.Logic.Relation

/-! Lock-free stacks whose head has a tag. Cells are linked through a successor each; a push links
its cell to the head and exchanges the head for it, a pop exchanges the head for the successor
that it has read. Every exchange counts the tag up, around its modulus, so a pop that read its
successor before other exchanges does not exchange.
-/

namespace Library

/-- The calls of a stack of distinct cells. -/
inductive StackOp (α : Type*)
  | push (cell : α)
  | pop

inductive StackRes (α : Type*)
  | pushed
  | popped (cell : Option α)

variable {T α : Type*}

/-- A stack is a list of distinct cells, whose head is its top. -/
inductive StackStep : List α → StackOp α → StackRes α → List α → Prop
  | push {cells : List α} (cell : α) (apart : cell ∉ cells)
    : StackStep cells (.push cell) .pushed (cell :: cells)
  | pop (cell : α) (rest : List α) : StackStep (cell :: rest) .pop (.popped (some cell)) rest
  | empty : StackStep [] .pop (.popped none) []

/-- A cell that is not in the stack is not popped without a push, by induction on the run. -/
theorem StackStep.pushed_of_popped {cells final : List α} {order : List (Effect (StackOp α) (StackRes α))}
    (run : Behaves StackStep cells order final) {cell : α} (apart : cell ∉ cells) {id : Nat}
    (pops : ⟨id, .pop, .popped (some cell)⟩ ∈ order)
    : ∃ id, ⟨id, .push cell, .pushed⟩ ∈ order := by
  induction order generalizing cells with
  | nil => cases pops
  | cons effect rest ih =>
      obtain ⟨middle, first, later⟩ := run
      obtain ⟨number, op, res⟩ := effect
      rcases List.mem_cons.mp pops with now | member
      · cases now
        cases first
        exact absurd List.mem_cons_self apart
      · have pushed (absent : cell ∉ middle) :
            ∃ id, ⟨id, .push cell, .pushed⟩ ∈ (⟨number, op, res⟩ :: rest : List (Effect _ _)) := by
          obtain ⟨id, found⟩ := ih later absent member
          exact ⟨id, List.mem_cons_of_mem _ found⟩
        cases first with
        | push other _ =>
            by_cases same : cell = other
            · subst other
              exact ⟨number, List.mem_cons_self⟩
            · exact pushed (List.not_mem_cons_of_ne_of_not_mem same apart)
        | pop other => exact pushed (List.not_mem_of_not_mem_cons apart)
        | empty => exact pushed apart

/-- The cells stay distinct, by induction on the run. -/
theorem StackStep.nodup {cells final : List α} {order : List (Effect (StackOp α) (StackRes α))}
    (run : Behaves StackStep cells order final) (nodup : cells.Nodup)
    : final.Nodup := by
  induction order generalizing cells with
  | nil =>
      cases run
      exact nodup
  | cons effect rest ih =>
      obtain ⟨middle, first, later⟩ := run
      obtain ⟨number, op, res⟩ := effect
      refine ih later ?_
      cases first with
      | push cell apart => exact List.nodup_cons.mpr ⟨apart, nodup⟩
      | pop cell => exact (List.nodup_cons.mp nodup).2
      | empty => exact nodup

/-- Between two pops of a cell it is pushed. -/
theorem StackStep.pushed_between {final : List α}
    {before between after : List (Effect (StackOp α) (StackRes α))} {cell : α} {first second : Nat}
    (run
      : Behaves StackStep []
          (before ++ ⟨first, .pop, .popped (some cell)⟩
            :: (between ++ ⟨second, .pop, .popped (some cell)⟩ :: after)) final)
    : ∃ id, ⟨id, .push cell, .pushed⟩ ∈ between := by
  obtain ⟨middle, earlier, run⟩ := run.split
  have nodup := StackStep.nodup earlier .nil
  obtain ⟨popped, pops, run⟩ := run
  cases pops with
  | pop _ rest =>
      have apart : cell ∉ popped := (List.nodup_cons.mp nodup).1
      rw [show between ++ ⟨second, .pop, .popped (some cell)⟩ :: after
        = (between ++ [⟨second, .pop, .popped (some cell)⟩]) ++ after by simp] at run
      obtain ⟨_, run, _⟩ := run.split
      obtain ⟨id, pushes⟩ := StackStep.pushed_of_popped run apart
        (List.mem_append_right _ List.mem_cons_self)
      rcases List.mem_append.mp pushes with found | last
      · exact ⟨id, found⟩
      · cases List.mem_singleton.mp last

-----------------------------------------------------------------------------------------
-- The machine
-----------------------------------------------------------------------------------------

namespace TaggedStack

/-- Where a thread stands in a push or pop. A loaded head comes with the ghost number of
exchanges when it was loaded, as far as that matters.
-/
inductive Access (α : Type*)
  | outside
  | loading
  | following (old : Nat × α) (seen : Nat)
  | popping (old : Nat × α) (next : α) (seen : Nat)
  | entering (cell : α)
  | linking (cell : α) (old : Nat × α)
  | pushing (cell : α) (old : Nat × α)

/-- The call that a thread executes. -/
def Access.op? : Access α → Option (StackOp α)
  | .outside => none
  | .loading | .following _ _ | .popping _ _ _ => some .pop
  | .entering cell | .linking cell _ | .pushing cell _ => some (.push cell)

/-- The cell that a thread pushes. -/
def Access.pushes : Access α → Option α
  | .entering cell | .linking cell _ | .pushing cell _ => some cell
  | _ => none

theorem Access.op?_of_pushes {access : Access α} {cell : α} (pushes : access.pushes = some cell)
    : access.op? = some (.push cell) := by
  cases access <;> cases pushes <;> rfl

theorem Access.pushes_of_op? {access : Access α} {cell : α} (about : access.op? = some (.push cell))
    : access.pushes = some cell := by
  cases access with
  | entering | linking | pushing =>
      cases about
      rfl
  | _ => cases about

theorem Access.outside_of_op? {access : Access α} (rests : access.op? = none)
    : access = .outside := by
  cases access with
  | outside => rfl
  | _ => cases rests

/-- What a call returns that ends there, whether or not it has exchanged the head. -/
def Access.res (exchanged : Bool) : Access α → StackRes α
  | .pushing _ _ => .pushed
  | .popping old _ _ => .popped (if exchanged then some old.2 else none)
  | _ => .popped none

/-- The head with its tag, the successors and the threads. -/
structure State (T α : Type*) where
  head : Nat × α
  next : α → α
  access : T → Access α
  /-- Ghost: the exchanges so far. -/
  updates : Nat

/-- The empty stack. -/
def State.empty (stop : α) (next : α → α) : State T α := ⟨(0, stop), next, fun _ => .outside, 0⟩

/-- A thread may push a cell that is neither in the stack nor being pushed. -/
structure State.Owned (s : State T α) (stop cell : α) : Prop where
  proper : cell ≠ stop
  absent : ∀ cells, Chain s.next stop s.head.2 cells → cell ∉ cells
  unpushed : ∀ u, (s.access u).pushes ≠ some cell

variable [DecidableEq T] [DecidableEq α]

def State.goto (s : State T α) (t : T) (access : Access α) : State T α :=
  { s with access := Function.update s.access t access }

omit [DecidableEq α] in
theorem State.goto_self (s : State T α) (t : T) : s.goto t (s.access t) = s := by
  rw [goto, Function.update_eq_self]

/-- The steps of a thread, for a tag of this modulus. Weak exchanges may fail, and a call may be
abandoned as long as it has not exchanged the head.
-/
inductive Step (tags : Nat) (stop : α) (s : State T α) (t : T)
    : Label (StackOp α) (StackRes α) → State T α → Prop
  | stay : Step tags stop s t .silent s
  | callPop (about : s.access t = .outside)
    : Step tags stop s t (.called .pop) (s.goto t .loading)
  | empty (about : (s.access t).op? = some .pop) (stops : s.head.2 = stop)
    : Step tags stop s t (.answered (.popped none)) (s.goto t .outside)
  | load (about : (s.access t).op? = some .pop) (more : s.head.2 ≠ stop)
    : Step tags stop s t .silent (s.goto t (.following s.head s.updates))
  | follow (old : Nat × α) (seen : Nat) (about : s.access t = .following old seen)
    : Step tags stop s t .silent (s.goto t (.popping old (s.next old.2) seen))
  | pop (old : Nat × α) (next : α) (seen : Nat) (about : s.access t = .popping old next seen)
    (same : s.head = old) (recent : s.updates - seen < tags)
    : Step tags stop s t (.answered (.popped (some old.2)))
        ({ s with head := ((old.1 + 1) % tags, next), updates := s.updates + 1 }.goto t .outside)
  | callPush (cell : α) (about : s.access t = .outside) (owned : s.Owned stop cell)
    : Step tags stop s t (.called (.push cell)) (s.goto t (.entering cell))
  | read (cell : α) (about : (s.access t).pushes = some cell)
    : Step tags stop s t .silent (s.goto t (.linking cell s.head))
  | link (cell : α) (old : Nat × α) (about : s.access t = .linking cell old)
    : Step tags stop s t .silent
        ({ s with next := Function.update s.next cell old.2 }.goto t (.pushing cell old))
  | push (cell : α) (old : Nat × α) (about : s.access t = .pushing cell old) (same : s.head = old)
    : Step tags stop s t (.answered .pushed)
        ({ s with head := ((old.1 + 1) % tags, cell), updates := s.updates + 1 }.goto t .outside)
  | abandon (op : StackOp α) (about : (s.access t).op? = some op)
    : Step tags stop s t .abandoned (s.goto t .outside)

/-- The runs from the empty stack, with their logs. -/
inductive Run (tags : Nat) (stop : α)
    : State T α → CallLog T (StackOp α) (StackRes α) → Prop
  | start (next : α → α) : Run tags stop (.empty stop next) .empty
  | step {s log t label s'} (run : Run tags stop s log) (step : Step tags stop s t label s')
    : Run tags stop s' (log.record t label)

-----------------------------------------------------------------------------------------
-- The invariant
-----------------------------------------------------------------------------------------

/-- What a thread knows. The head that a pop has loaded is the current one unless there were
exchanges since; the cell that a push links is its own.
-/
def Access.Fits (s : State T α) (tags : Nat) (stop : α) (cells : List α) : Access α → Prop
  | .outside | .loading => True
  | .following old seen =>
      old.1 = seen % tags ∧ seen ≤ s.updates ∧ (seen = s.updates → old = s.head) ∧ old.2 ≠ stop
  | .popping old next seen =>
      old.1 = seen % tags ∧ seen ≤ s.updates ∧ (seen = s.updates → old = s.head)
      ∧ old.2 ≠ stop ∧ (seen = s.updates → next = s.next old.2)
  | .entering cell | .linking cell _ => cell ≠ stop ∧ cell ∉ cells
  | .pushing cell old => cell ≠ stop ∧ cell ∉ cells ∧ s.next cell = old.2

/-- The state stands for this stack. -/
structure Inv (tags : Nat) (stop : α) (s : State T α) (cells : List α) : Prop where
  chain : Chain s.next stop s.head.2 cells
  nodup : cells.Nodup
  tag : s.head.1 = s.updates % tags
  fits : ∀ t, (s.access t).Fits s tags stop cells
  apart : ∀ t u cell, (s.access t).pushes = some cell → (s.access u).pushes = some cell → u = t

variable {tags : Nat} {stop : α} {s s' : State T α} {t : T} {cells : List α}
  {label : Label (StackOp α) (StackRes α)} {access : Access α}

omit [DecidableEq T] [DecidableEq α] in
theorem Access.Fits.of_pushes (fits : access.Fits s tags stop cells) {cell : α}
    (pushes : access.pushes = some cell)
    : cell ≠ stop ∧ cell ∉ cells := by
  cases access with
  | entering | linking =>
      cases pushes
      exact fits
  | pushing =>
      cases pushes
      exact ⟨fits.1, fits.2.1⟩
  | _ => cases pushes

omit [DecidableEq T] [DecidableEq α] in
/-- What a thread knows of a head that was not exchanged since. -/
theorem Inv.current (inv : Inv tags stop s cells) {old : Nat × α} {seen : Nat}
    (tag : old.1 = seen % tags) (past : seen ≤ s.updates) (same : s.head = old)
    (recent : s.updates - seen < tags)
    : seen = s.updates := by
  have sameTag : s.updates % tags = seen % tags := by rw [← tag, ← same, inv.tag]
  have none := Nat.sub_mod_eq_zero_of_mod_eq sameTag
  rw [Nat.mod_eq_of_lt recent] at none
  omega

omit [DecidableEq α] in
/-- A thread goes on within its call. -/
theorem Inv.goto (inv : Inv tags stop s cells) (fits : access.Fits s tags stop cells)
    (pushes
      : ∀ cell, access.pushes = some cell → ∀ u ≠ t, (s.access u).pushes ≠ some cell)
    : Inv tags stop (s.goto t access) cells where
  chain := inv.chain
  nodup := inv.nodup
  tag := inv.tag
  fits := by
    intro u
    simp only [State.goto]
    by_cases self : u = t
    · subst u
      rw [Function.update_self]
      exact fits
    · rw [Function.update_of_ne self]
      exact inv.fits u
  apart := by
    intro u v cell mine yours
    simp only [State.goto] at mine yours
    by_cases self : u = t
    · subst u
      rw [Function.update_self] at mine
      by_cases self' : v = t
      · exact self'
      · rw [Function.update_of_ne self'] at yours
        exact absurd yours (pushes cell mine v self')
    · rw [Function.update_of_ne self] at mine
      by_cases self' : v = t
      · subst v
        rw [Function.update_self] at yours
        exact absurd mine (pushes cell yours u self)
      · rw [Function.update_of_ne self'] at yours
        exact inv.apart u v cell mine yours

omit [DecidableEq T] [DecidableEq α] in
/-- Whoever pushes a cell goes on to push it alone. -/
theorem Inv.alone (inv : Inv tags stop s cells) {cell : α}
    (about : (s.access t).pushes = some cell)
    : ∀ other, some cell = some other → ∀ u ≠ t, (s.access u).pushes ≠ some other := by
  rintro other ⟨⟩ u self pushes
  exact self (inv.apart t u cell about pushes)

omit [DecidableEq T] [DecidableEq α] in
/-- An exchange of the head makes all heads that were loaded before it out of date. -/
theorem Inv.exchanged (inv : Inv tags stop s cells) {cell : α} {cells' : List α}
    (chain : Chain s.next stop cell cells') (nodup : cells'.Nodup)
    (absent : ∀ u other, (s.access u).pushes = some other → other ∉ cells')
    : Inv tags stop
        { s with head := ((s.head.1 + 1) % tags, cell), updates := s.updates + 1 } cells' where
  chain := chain
  nodup := nodup
  tag := by rw [inv.tag, Nat.mod_add_mod]
  fits u := by
    have before := inv.fits u
    have old {seen : Nat} (past : seen ≤ s.updates) : seen ≠ s.updates + 1 :=
      Nat.ne_of_lt (Nat.lt_succ_of_le past)
    change (s.access u).Fits _ tags stop cells'
    cases access : s.access u with
    | outside | loading => trivial
    | following =>
        rw [access] at before
        obtain ⟨tag, past, _, more⟩ := before
        exact ⟨tag, Nat.le_succ_of_le past, fun now => absurd now (old past), more⟩
    | popping =>
        rw [access] at before
        obtain ⟨tag, past, _, more, _⟩ := before
        exact ⟨tag, Nat.le_succ_of_le past, fun now => absurd now (old past), more,
          fun now => absurd now (old past)⟩
    | entering other | linking other =>
        rw [access] at before
        exact ⟨before.1, absent u other (by rw [access]; rfl)⟩
    | pushing other =>
        rw [access] at before
        exact ⟨before.1, absent u other (by rw [access]; rfl), before.2.2⟩
  apart := inv.apart

omit [DecidableEq α] in
/-- A pop exchanges the top for the cell below it, although the top may have been popped and
pushed again since its successor was read: the tag shows that it was not.
-/
theorem Inv.popped (inv : Inv tags stop s cells) {old : Nat × α} {next : α} {seen : Nat}
    (about : s.access t = .popping old next seen) (same : s.head = old)
    (recent : s.updates - seen < tags)
    : ∃ rest, cells = old.2 :: rest
        ∧ Inv tags stop
            ({
              s with
              head := ((old.1 + 1) % tags, next)
              updates := s.updates + 1
            }.goto t .outside) rest := by
  have mine := inv.fits t
  rw [about] at mine
  obtain ⟨tag, past, _, proper, linked⟩ := mine
  have successor := linked (inv.current tag past same recent)
  subst same
  obtain ⟨rest, rfl, tail⟩ := inv.chain.exists_rest proper
  have exchanged := inv.exchanged (successor ▸ tail) (List.nodup_cons.mp inv.nodup).2
    fun u other pushes => List.not_mem_of_not_mem_cons ((inv.fits u).of_pushes pushes).2
  exact ⟨rest, rfl, exchanged.goto trivial nofun⟩

omit [DecidableEq α] in
/-- A push exchanges the top for its cell. -/
theorem Inv.pushed (inv : Inv tags stop s cells) {cell : α} {old : Nat × α}
    (about : s.access t = .pushing cell old) (same : s.head = old)
    : cell ∉ cells
      ∧ Inv tags stop
          ({
            s with
            head := ((old.1 + 1) % tags, cell)
            updates := s.updates + 1
          }.goto t .outside) (cell :: cells) := by
  have mine := inv.fits t
  rw [about] at mine
  obtain ⟨proper, absent, linked⟩ := mine
  subst same
  have left : Inv tags stop (s.goto t .outside) cells := inv.goto trivial nofun
  refine ⟨absent, left.exchanged (inv.chain.push proper linked)
    (List.nodup_cons.mpr ⟨absent, inv.nodup⟩) fun u other pushes => ?_⟩
  refine List.not_mem_cons_of_ne_of_not_mem ?_ ((left.fits u).of_pushes pushes).2
  rintro rfl
  by_cases self : u = t
  · simp only [State.goto, self, Function.update_self] at pushes
    cases pushes
  · simp only [State.goto, Function.update_of_ne self] at pushes
    exact self (inv.apart t u other (by rw [about]; rfl) pushes)

/-- A push links its cell, which is not in the stack and no one else's. -/
theorem Inv.linked (inv : Inv tags stop s cells) {cell : α} {old : Nat × α}
    (about : s.access t = .linking cell old)
    : Inv tags stop
        ({ s with next := Function.update s.next cell old.2 }.goto t (.pushing cell old)) cells := by
  have mine := inv.fits t
  rw [about] at mine
  obtain ⟨proper, absent⟩ := mine
  have left : Inv tags stop (s.goto t .outside) cells := inv.goto trivial nofun
  have untouched {other : α} (apart : other ≠ cell) :
      Function.update s.next cell old.2 other = s.next other := Function.update_of_ne apart _ _
  have relinked : Inv tags stop
      { s.goto t .outside with next := Function.update s.next cell old.2 } cells := by
    refine ⟨inv.chain.congr fun other member => untouched fun same => absent (same ▸ member),
      inv.nodup, inv.tag, fun u => ?_, left.apart⟩
    have theirs := left.fits u
    change ((s.goto t .outside).access u).Fits _ tags stop cells
    cases access : (s.goto t .outside).access u with
    | outside | loading => trivial
    | following | entering | linking =>
        rw [access] at theirs
        exact theirs
    | popping old' next seen =>
        rw [access] at theirs
        obtain ⟨tag, past, current, more, linked⟩ := theirs
        refine ⟨tag, past, current, more, fun now => (linked now).trans (untouched ?_).symm⟩
        -- the head that was loaded is still the first cell, so it is not the one that is linked
        rintro rfl
        rw [current now] at more absent
        exact absent (inv.chain.head_eq_or_mem.resolve_left more)
    | pushing other =>
        rw [access] at theirs
        refine ⟨theirs.1, theirs.2.1, (untouched ?_).trans theirs.2.2⟩
        rintro rfl
        by_cases self : u = t
        · simp only [State.goto, self, Function.update_self] at access
          cases access
        · simp only [State.goto, Function.update_of_ne self] at access
          exact self (inv.apart t u other (by rw [about]; rfl) (by rw [access]; rfl))
  have again : { s with next := Function.update s.next cell old.2 }.goto t (.pushing cell old)
      = { s.goto t .outside with next := Function.update s.next cell old.2 }.goto t
          (.pushing cell old) := by
    simp only [State.goto, Function.update_idem]
  rw [again]
  refine relinked.goto ⟨proper, absent, Function.update_self ..⟩ ?_
  rintro other ⟨⟩ u self
  simp only [State.goto, Function.update_of_ne self]
  exact inv.alone (by rw [about]; rfl) cell rfl u self

-----------------------------------------------------------------------------------------
-- Runs
-----------------------------------------------------------------------------------------

/-- What a step means for the stack. -/
def Explains (op : Option (StackOp α)) (cells : List α) (label : Label (StackOp α) (StackRes α))
    (cells' : List α)
    : Prop :=
  match label with
  | .answered res => ∃ made, op = some made ∧ StackStep cells made res cells'
  | _ => cells' = cells

/-- Every step is one of the stack, or leaves it as it is; by cases on the step. -/
theorem Inv.step (inv : Inv tags stop s cells) (step : Step tags stop s t label s')
    : ∃ cells', Inv tags stop s' cells' ∧ Explains (s.access t).op? cells label cells' := by
  cases step with
  | stay => exact ⟨cells, inv, rfl⟩
  | callPop about => exact ⟨cells, inv.goto trivial nofun, rfl⟩
  | empty about stops =>
      have chain := inv.chain
      rw [stops] at chain
      cases chain.nil_of_stop
      exact ⟨[], inv.goto trivial nofun, .pop, about, .empty⟩
  | load about more =>
      exact ⟨cells, inv.goto ⟨inv.tag, Nat.le_refl _, fun _ => rfl, more⟩ nofun, rfl⟩
  | follow old seen about =>
      have mine := inv.fits t
      rw [about] at mine
      obtain ⟨tag, past, current, more⟩ := mine
      exact ⟨cells, inv.goto ⟨tag, past, current, more, fun _ => rfl⟩ nofun, rfl⟩
  | pop old next seen about same recent =>
      obtain ⟨rest, rfl, inv'⟩ := inv.popped about same recent
      exact ⟨rest, inv', .pop, by rw [about]; rfl, .pop old.2 rest⟩
  | callPush cell about owned =>
      refine ⟨cells, inv.goto ⟨owned.proper, owned.absent cells inv.chain⟩ ?_, rfl⟩
      rintro other ⟨⟩ u _
      exact owned.unpushed u
  | read cell about =>
      exact ⟨cells, inv.goto ((inv.fits t).of_pushes about) (inv.alone about), rfl⟩
  | link cell old about => exact ⟨cells, inv.linked about, rfl⟩
  | push cell old about same =>
      obtain ⟨absent, inv'⟩ := inv.pushed about same
      exact ⟨cell :: cells, inv', .push cell, by rw [about]; rfl, .push cell absent⟩
  | abandon op about => exact ⟨cells, inv.goto trivial nofun, rfl⟩

/-- The log knows the calls that the threads execute. -/
def Tracks (log : CallLog T (StackOp α) (StackRes α)) (s : State T α) : Prop :=
  ∀ u, (log.current u).map Prod.snd = (s.access u).op?

variable {log : CallLog T (StackOp α) (StackRes α)}

/-- A step changes the call of its thread by what it tells, by cases on the step. -/
theorem Step.op? (step : Step tags stop s t label s')
    : (∀ u ≠ t, (s'.access u).op? = (s.access u).op?)
      ∧ match label with
        | .silent => (s'.access t).op? = (s.access t).op?
        | .called op => (s'.access t).op? = some op
        | .answered _ | .abandoned =>
            (s'.access t).op? = none ∧ ∃ op, (s.access t).op? = some op := by
  have others (before : State T α) (access : Access α) (same : before.access = s.access) :
      ∀ u ≠ t, ((before.goto t access).access u).op? = (s.access u).op? := by
    intro u self
    simp only [State.goto, Function.update_of_ne self, same]
  have mine (before : State T α) (access : Access α) :
      ((before.goto t access).access t).op? = access.op? := by
    simp only [State.goto, Function.update_self]
  cases step with
  | stay => exact ⟨fun _ _ => rfl, rfl⟩
  | callPop | callPush => exact ⟨others s _ rfl, mine s _⟩
  | empty about => exact ⟨others s _ rfl, mine s _, _, about⟩
  | load about => exact ⟨others s _ rfl, (mine s _).trans about.symm⟩
  | follow old seen about => exact ⟨others s _ rfl, (mine s _).trans (by rw [about]; rfl)⟩
  | pop old next seen about => exact ⟨others _ _ rfl, mine _ _, .pop, by rw [about]; rfl⟩
  | read cell about => exact ⟨others s _ rfl, (mine s _).trans (Access.op?_of_pushes about).symm⟩
  | link cell old about => exact ⟨others _ _ rfl, (mine _ _).trans (by rw [about]; rfl)⟩
  | push cell old about => exact ⟨others _ _ rfl, mine _ _, .push cell, by rw [about]; rfl⟩
  | abandon op about => exact ⟨others s _ rfl, mine s _, op, about⟩

omit [DecidableEq α] in
/-- A call that has ended leaves no other call to its thread. -/
theorem Tracks.finished (tracks : Tracks log s) {history : List (Record (StackOp α) (StackRes α))}
    (others : ∀ u ≠ t, (s'.access u).op? = (s.access u).op?) (mine : (s'.access t).op? = none)
    : Tracks { log with current := Function.update log.current t none, history := history } s' := by
  intro u
  by_cases self : u = t
  · subst u
    simp only [Function.update_self, mine]
    rfl
  · simp only [Function.update_of_ne self, others u self]
    exact tracks u

/-- The log goes on with the steps, by cases on what they tell. -/
theorem Tracks.record (tracks : Tracks log s) (step : Step tags stop s t label s')
    : Tracks (log.record t label) s' := by
  obtain ⟨others, mine⟩ := step.op?
  cases label with
  | silent =>
      intro u
      by_cases self : u = t
      · subst u
        exact (tracks t).trans mine.symm
      · exact (tracks u).trans (others u self).symm
  | called op =>
      intro u
      simp only [CallLog.record]
      by_cases self : u = t
      · subst u
        rw [Function.update_self]
        exact mine.symm
      · rw [Function.update_of_ne self]
        exact (tracks u).trans (others u self).symm
  | answered res =>
      obtain ⟨outside, op, about⟩ := mine
      obtain ⟨⟨id, _⟩, running, rfl⟩ := Option.map_eq_some_iff.mp ((tracks t).trans about)
      rw [CallLog.record_answered running]
      exact tracks.finished others outside
  | abandoned =>
      obtain ⟨outside, op, about⟩ := mine
      obtain ⟨⟨id, _⟩, running, rfl⟩ := Option.map_eq_some_iff.mp ((tracks t).trans about)
      rw [CallLog.record_abandoned running]
      exact tracks.finished others outside

/-- The effects of a run make the stack that its state stands for, by induction on the run. -/
theorem Run.explained (run : Run tags stop s log)
    : log.Valid
      ∧ Tracks log s
      ∧ ∃ cells, Inv tags stop s cells ∧ Behaves StackStep [] (effects log.history) cells := by
  induction run with
  | start next =>
      refine ⟨.empty, fun _ => rfl, [], ⟨rfl, .nil, (Nat.zero_mod tags).symm, fun _ => trivial, ?_⟩,
        rfl⟩
      rintro t u cell ⟨⟩
  | @step s log t label s' _ step ih =>
      obtain ⟨valid, tracks, cells, inv, behaves⟩ := ih
      obtain ⟨cells', inv', explains⟩ := inv.step step
      refine ⟨valid.record t label, tracks.record step, cells', inv', ?_⟩
      have tracked := tracks t
      have told := step.op?.2
      cases label with
      | silent =>
          cases explains
          exact behaves
      | called op =>
          cases explains
          simp only [CallLog.record]
          rw [effects_concat rfl]
          exact behaves
      | answered res =>
          obtain ⟨op, about, taken⟩ := explains
          obtain ⟨⟨id, _⟩, running, rfl⟩ := Option.map_eq_some_iff.mp (tracked.trans about)
          rw [CallLog.record_answered running, effects_concat rfl, effects_concat_lin]
          exact behaves.concat taken
      | abandoned =>
          cases explains
          obtain ⟨_, op, about⟩ := told
          obtain ⟨⟨id, _⟩, running, rfl⟩ := Option.map_eq_some_iff.mp (tracked.trans about)
          rw [CallLog.record_abandoned running, effects_concat rfl]
          exact behaves

/-- Every run is linearizable, by the order of its effects. These leave the cells that are linked
from the head.
-/
theorem Run.linearization (run : Run tags stop s log)
    : ∃ cells,
        Chain s.next stop s.head.2 cells
        ∧ Behaves StackStep [] (effects log.history) cells
        ∧ Linearization StackStep [] log.history (effects log.history) := by
  obtain ⟨valid, _, cells, inv, behaves⟩ := run.explained
  exact ⟨cells, inv.chain, behaves, valid.recorded.linearization behaves⟩

end TaggedStack

end Library
