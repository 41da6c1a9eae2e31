import AtomicSlotMap.Ownership.Refinement

/-! Every step of the program is matched by steps of the ownership protocol, by cases on the
moves.
-/

namespace AtomicSlotMap

variable {T K V E : Type} [Key K]

variable [DecidableEq T]

namespace Sys

section

variable {s s' s'' : Sys T K V E}

omit [Key K] [DecidableEq T] in
theorem Quiet.of_same (freeHead : s'.freeHead = s.freeHead) (updates : s'.updates = s.updates)
    (slots : s'.slots = s.slots) (guards : s'.guards = s.guards)
    : s.Quiet s' where
  freeHead := freeHead
  updates := updates
  versions := fun idx => by rw [slots]
  links := fun idx => by rw [slots]
  guards := fun guard member => guards ▸ member

omit [Key K] [DecidableEq T] in
theorem Quiet.of_alike (alike : s.Alike s') : s.Quiet s' :=
  .of_same alike.freeHead alike.updates alike.slots alike.guards

omit [Key K] [DecidableEq T] in
theorem Quiet.trans (first : s.Quiet s') (second : s'.Quiet s'') : s.Quiet s'' where
  freeHead := second.freeHead.trans first.freeHead
  updates := second.updates.trans first.updates
  versions := fun idx => (second.versions idx).trans (first.versions idx)
  links := fun idx => (second.links idx).trans (first.links idx)
  guards := fun guard member => second.guards guard (first.guards guard member)

omit [Key K] in
theorem quiet_goto (s : Sys T K V E) (t : T) (pc : Pc K V E) : s.Quiet (s.goto t pc) :=
  .of_same rfl rfl rfl rfl

omit [Key K] [DecidableEq T] in
theorem quiet_emit (s : Sys T K V E) (event : Event T K V) : s.Quiet (s.emit event) :=
  .of_same rfl rfl rfl rfl

omit [Key K] [DecidableEq T] in
theorem quiet_answer (s : Sys T K V E) (t : T) (res : Res K V E) : s.Quiet (s.answer t res) :=
  .of_alike (alike_answer s t res)

omit [Key K] in
theorem quiet_finish (s : Sys T K V E) (t : T) (event : Nat → HistoryEvent K V E)
    : s.Quiet (s.finish t event) :=
  .of_alike (alike_finish s t event)

omit [Key K] in
theorem quiet_unwind (s : Sys T K V E) (t : T) : s.Quiet (s.unwind t) :=
  .of_alike (alike_unwind s t)

omit [Key K] [DecidableEq T] in
theorem quiet_addGuard (s : Sys T K V E) (guard : Guard K V) : s.Quiet (s.addGuard guard) :=
  ⟨rfl, rfl, fun _ => rfl, fun _ => rfl, fun _ member => List.mem_cons_of_mem _ member⟩

omit [Key K] [DecidableEq T] in
/-- Changing the count or the value of a slot is quiet. -/
theorem quiet_setSlot (s : Sys T K V E) {idx : Nat} {slot : Slot V}
    (version : slot.version = (s.slots idx).version)
    (link : slot.nextFree = (s.slots idx).nextFree)
    : s.Quiet (s.setSlot idx slot) where
  freeHead := rfl
  updates := rfl
  versions := by
    intro other
    by_cases same : other = idx
    · subst other
      simpa [setSlot] using version
    · simp [setSlot, same]
  links := by
    intro other
    by_cases same : other = idx
    · subst other
      simpa [setSlot] using link
    · simp [setSlot, same]
  guards := fun _ member => member

end

variable [Fintype T] {s s' : Sys T K V E} {free : List Nat} {t : T} {dbg : Bool}

-----------------------------------------------------------------------------------------
-- Steps without an effect on the slots
-----------------------------------------------------------------------------------------

/-- A step of the program is matched by steps of the protocol, for some free list. -/
def Matched (s : Sys T K V E) (free : List Nat) (s' : Sys T K V E) : Prop :=
  ∃ free', Relation.ReflTransGen Ownership.Step (s.view free) (s'.view free') ∧ s'.Inv free'

/-- A quiet step is matched if the protocol takes it. -/
theorem Inv.matched_quiet (inv : s.Inv free)
    (run : Relation.ReflTransGen Ownership.Step (s.view free) (s'.view free))
    (quiet : s.Quiet s') (pcs : ∀ other ≠ t, s'.pc other = s.pc other)
    (mine : (s'.pc t).Fits s)
    : s.Matched free s' :=
  ⟨free, run, inv.advance_quiet run quiet pcs mine⟩

/-- A quiet step that the protocol does not see is matched by no step. -/
theorem Inv.matched_silent (inv : s.Inv free) (same : s'.view free = s.view free)
    (quiet : s.Quiet s') (pcs : ∀ other ≠ t, s'.pc other = s.pc other)
    (mine : (s'.pc t).Fits s)
    : s.Matched free s' :=
  inv.matched_quiet (same ▸ .refl) quiet pcs mine

omit [Fintype T] in
/-- Going to a program counter of the same role does not change the view. -/
theorem view_goto_same {s : Sys T K V E} {free : List Nat} {t : T} {pc : Pc K V E}
    (same : pc.role = (s.pc t).role)
    : (s.goto t pc).view free = s.view free := by
  rw [view_goto, same]
  exact congrArg (fun role => { s.view free with role }) (Function.update_eq_self t _)

theorem Inv.go (inv : s.Inv free) {pc : Pc K V E} (goes : (s.pc t).Goes dbg s pc)
    : s.Matched free (s.goto t pc) := by
  refine inv.matched_silent (view_goto_same goes.role) (quiet_goto s t pc)
    (fun _ apart => pc_goto_of_ne s t apart pc) ?_
  rw [pc_goto_self]
  exact goes.fits inv (inv.fits t)

theorem Inv.answered (inv : s.Inv free) {res : Res K V E} {pc : Pc K V E}
    (answers : (s.pc t).Answers dbg s res pc)
    : s.Matched free ((s.answer t res).goto t pc) := by
  have same : ((s.answer t res).goto t pc).view free = s.view free := by
    rw [view_goto_same (by rw [pc_answer, answers.role]), view_answer]
  refine inv.matched_silent (t := t) same ((quiet_answer s t res).trans (quiet_goto _ t pc)) ?_ ?_
  · intro other apart
    rw [pc_goto_of_ne _ t apart, pc_answer]
  · rw [pc_goto_self]
    exact answers.fits

theorem Inv.returned (inv : s.Inv free) {res : Res K V E} (about : s.pc t = .ret res)
    : s.Matched free ((s.finish t (.ret · res)).goto t res.rest) := by
  have same : ((s.finish t (.ret · res)).goto t res.rest).view free = s.view free := by
    rw [view_goto_same (by simp [about, Pc.role]), view_finish]
  refine inv.matched_silent (t := t) same ((quiet_finish s t _).trans (quiet_goto _ t _)) ?_ ?_
  · intro other apart
    rw [pc_goto_of_ne _ t apart, pc_finish]
  · rw [pc_goto_self]
    cases res <;> trivial

theorem Inv.unwound (inv : s.Inv free) (about : s.pc t = .unwinding)
    : s.Matched free ((s.finish t .unwound).goto t .idle) := by
  have same : ((s.finish t .unwound).goto t .idle).view free = s.view free := by
    rw [view_goto_same (by simp [about, Pc.role]), view_finish]
  refine inv.matched_silent (t := t) same ((quiet_finish s t _).trans (quiet_goto _ t _)) ?_ ?_
  · intro other apart
    rw [pc_goto_of_ne _ t apart, pc_finish]
  · rw [pc_goto_self]
    trivial

theorem Inv.began (inv : s.Inv free) {op : Op K} {pc : Pc K V E} (calls : (s.pc t).Calls op)
    (starts : op.Starts s pc)
    : s.Matched free ((s.begin t op).goto t pc) := by
  have same : ((s.begin t op).goto t pc).view free = s.view free :=
    view_goto_same (s := s.begin t op) (starts.role.trans calls.role.symm)
  refine inv.matched_silent (t := t) same (.of_same rfl rfl rfl rfl) ?_ ?_
  · intro other apart
    exact pc_goto_of_ne _ t apart pc
  · rw [pc_goto_self]
    exact starts.fits

-----------------------------------------------------------------------------------------
-- Panics
-----------------------------------------------------------------------------------------

end Sys

omit [DecidableEq T] in
/-- An activity that holds a slot without a value loses it if it unwinds, by induction on
the waits before its access.
-/
theorem Pc.holds_of_vacant {pc : Pc K V E} {idx : Nat} (role : pc.role.vacant idx)
    : pc.holds = some idx := by
  have ensured {after : AfterEnsure} (role : (after.role : Role K V).vacant idx) :
      after = .pushed idx := by
    cases after <;> simp_all [AfterEnsure.role, Role.vacant]
  have pushing {held : Nat} {after : AfterPush K E}
      (role : (after.role held : Role K V).vacant idx) :
      held = idx := by
    cases after <;> exact role
  induction pc with
  | waitForChunk _ next ih => exact ih role
  | assertRefCount _ next ih => exact ih role
  | assertVersion _ next ih => exact ih role
  | ensureLoad chunk after => rw [ensured role]; rfl
  | ensureAlloc chunk after => rw [ensured role]; rfl
  | ensureCas chunk new after => rw [ensured role]; rfl
  | ensureDealloc new after => rw [ensured role]; rfl
  | pushLoad held after => exact congrArg some (pushing role)
  | pushStore held old after => exact congrArg some (pushing role)
  | pushCas held old after => exact congrArg some (pushing role)
  | insertVersion | closure | insertWrite => exact congrArg some role
  | _ => cases role

omit [DecidableEq T] in
/-- Where a call can panic it holds a slot without a value or nothing. -/
theorem Pc.Fails.role {s : Sys T K V E} {dbg : Bool} {pc : Pc K V E} (fails : pc.Fails dbg s)
    (fits : pc.Fits s)
    : (∃ idx, pc.role.vacant idx) ∨ (pc.role = .none ∧ pc.holds = none) := by
  cases fails with
  | referenced idx next positive => exact Or.inl ⟨idx, fits.1⟩
  | occupied idx next odd => exact Or.inl ⟨idx, fits.1⟩
  | closure idx version => exact Or.inl ⟨idx, rfl⟩
  | layoutOverflow chunk after =>
      cases after with
      | pushed idx => exact Or.inl ⟨idx, rfl⟩
      | reserving chunk maxChunk => exact Or.inr ⟨rfl, rfl⟩
  | _ => exact Or.inr ⟨rfl, rfl⟩

namespace Sys

variable [Fintype T] {s s' : Sys T K V E} {free : List Nat} {t : T} {dbg : Bool}

omit [Fintype T] in
/-- Unwinding from a program counter that holds a slot loses the slot. -/
theorem view_unwind_of_holds {s : Sys T K V E} {t : T} {free : List Nat} {idx : Nat}
    (holds : (s.pc t).holds = some idx)
    : (s.unwind t).view free
      = {
          s.view free with
          role := Function.update (s.view free).role t .none
          trace := .leaked t idx :: (s.view free).trace
        } := by
  simp only [unwind, holds]
  rw [view_goto, view_emit]
  rfl

theorem Inv.failed (inv : s.Inv free) (fails : (s.pc t).Fails dbg s)
    : s.Matched free (s.unwind t) := by
  have pcs : ∀ other ≠ t, (s.unwind t).pc other = s.pc other := fun _ apart =>
    pc_unwind_of_ne s t apart
  have mine : ((s.unwind t).pc t).Fits s := by
    rw [pc_unwind_self]
    trivial
  rcases fails.role (inv.fits t) with ⟨idx, role⟩ | ⟨role, holds⟩
  · have leak : Ownership.Step (s.view free) ((s.unwind t).view free) := by
      rw [view_unwind_of_holds (Pc.holds_of_vacant role)]
      exact .leak t idx role
    exact inv.matched_quiet (.single leak) (quiet_unwind s t) pcs mine
  · have same : (s.unwind t).view free = s.view free := by
      simp only [unwind, holds]
      exact view_goto_same role.symm
    exact inv.matched_silent same (quiet_unwind s t) pcs mine

-----------------------------------------------------------------------------------------
-- The free list
-----------------------------------------------------------------------------------------

/-- Indices of free slots, and the mark at the end, fit in a word. -/
theorem Inv.next_lt (inv : s.Inv free) {next : Nat} (listed : next = SENTINEL ∨ next ∈ free)
    : next < 2 ^ 32 := by
  rcases listed with rfl | member
  · decide
  · have begun : (s.view free).phase next ≠ .unborn := by
      rw [(inv.owned.free next).mp member]
      exact fun same => by cases same
    exact Nat.lt_trans (inv.owned.lt_len begun) inv.owned.bound

/-- An exchange of the free head advances the tag with the count of updates. -/
theorem Inv.advanced_tag (inv : s.Inv free)
    : wrappingAdd (unpackFreeHead s.freeHead).1 1 = (s.updates + 1) % 2 ^ 32 := by
  have tag : (unpackFreeHead s.freeHead).1 = s.updates % 2 ^ 32 := by
    rw [inv.head, unpackFreeHead_pack (by omega) (by simp only [unpackFreeHead]; omega)]
  rw [tag]
  simp only [wrappingAdd]
  omega

/-- A pop whose tag is still the one it loaded has seen the current head. -/
theorem Inv.seen_of_tag (inv : s.Inv free) {old seen : Nat} (observed : s.Observed old seen)
    (recent : s.updates - seen < 2 ^ 32) (same : s.freeHead = old)
    : seen = s.updates := by
  have past := observed.past
  have words : packFreeHead (s.updates % 2 ^ 32) (unpackFreeHead s.freeHead).2
      = packFreeHead (seen % 2 ^ 32) (unpackFreeHead old).2 := by
    rw [← inv.head, ← observed.word, same]
  have tags := (packFreeHead_inj (by simp only [unpackFreeHead]; omega)
    (by simp only [unpackFreeHead]; omega) words).1
  omega

theorem Inv.popped (inv : s.Inv free) {old next seen : Nat}
    (about : s.pc t = .popCas old next seen) (same : s.freeHead = old)
    (recent : s.updates - seen < 2 ^ 32)
    : s.Matched free (s.popExchange dbg t old next) := by
  have fits := inv.fits t
  rw [about] at fits
  obtain ⟨observed, linked⟩ := fits
  have isNext := linked (inv.seen_of_tag observed recent same)
  subst same
  obtain ⟨rest, listed, tail⟩ := inv.chain.exists_rest observed.some
  rw [← isNext] at tail
  have small : next < 2 ^ 32 := inv.next_lt (tail.head_eq_or_mem.imp id fun member => by
    rw [listed]
    exact List.mem_cons_of_mem _ member)
  have step : Ownership.Step (s.view free) ((s.popExchange dbg t s.freeHead next).view rest) := by
    have shape : (s.popExchange dbg t s.freeHead next).view rest
        = {
            s.view free with
            free := rest
            role :=
              Function.update (s.view free).role t (.reserved (unpackFreeHead s.freeHead).2)
            trace := .popped t (unpackFreeHead s.freeHead).2 :: (s.view free).trace
          } := by
      simp only [popExchange, view_goto, view_emit, view_setFreeHead,
        Pc.role_exclusivelyOwned, Pc.role]
      rfl
    rw [shape]
    refine .pop t _ rest ?_ listed
    show (s.pc t).role = .none
    rw [about]
    rfl
  refine ⟨rest, .single step, inv.advance (t := t) (.single step) ?_ ?_ inv.versions ?_ ?_
    (Or.inr rfl) (fun _ => Or.inl rfl) (fun _ => Or.inl rfl) (fun _ _ _ member _ => member)⟩
  · show Library.Chain _ _
      (unpackFreeHead (packFreeHead (wrappingAdd (unpackFreeHead s.freeHead).1 1) next)).2 rest
    rw [inv.advanced_tag, unpackFreeHead_pack (by omega) small]
    exact tail
  · show packFreeHead (wrappingAdd (unpackFreeHead s.freeHead).1 1) next
      = packFreeHead ((s.updates + 1) % 2 ^ 32)
          (unpackFreeHead (packFreeHead (wrappingAdd (unpackFreeHead s.freeHead).1 1) next)).2
    rw [inv.advanced_tag, unpackFreeHead_pack (by omega) small]
  · intro other apart
    exact pc_goto_of_ne _ t apart _
  · simp only [popExchange, pc_goto_self]
    exact Pc.fits_exclusivelyOwned _ trivial rfl

/-- The exchange that puts a slot back makes it the first of the free ones. -/
theorem Inv.chain_recycled (inv : s.Inv free) {idx : Nat} {after : AfterPush K E}
    (about : s.pc t = .pushCas idx s.freeHead after)
    : Library.Chain (fun other => (s.slots other).nextFree) SENTINEL
        (unpackFreeHead (packFreeHead (wrappingAdd (unpackFreeHead s.freeHead).1 1) idx)).2
        (idx :: free) := by
  have fits := inv.fits t
  rw [about] at fits
  have role : (s.pc t).role.vacant idx := by
    rw [about]
    exact after.vacant_role
  have within : idx < s.len := inv.owned.holds_lt_len (t := t) (Role.holds_of_vacant role)
  have bound : s.len < 2 ^ 32 := inv.owned.bound
  rw [inv.advanced_tag, unpackFreeHead_pack (by omega) (by omega)]
  refine inv.chain.push ?_ fits
  simp only [SENTINEL]
  omega

theorem Inv.recycled (inv : s.Inv free) {idx old : Nat} {after : AfterPush K E}
    (about : s.pc t = .pushCas idx old after) (same : s.freeHead = old)
    : s.Matched free (s.pushExchange t idx old after) := by
  subst same
  have role : (s.pc t).role.vacant idx := by
    rw [about]
    exact after.vacant_role
  have within : idx < s.len := inv.owned.holds_lt_len (t := t) (Role.holds_of_vacant role)
  have bound : s.len < 2 ^ 32 := inv.owned.bound
  have step : Ownership.Step (s.view free)
      ((s.pushExchange t idx s.freeHead after).view (idx :: free)) := by
    have shape : (s.pushExchange t idx s.freeHead after).view (idx :: free)
        = {
            s.view free with
            free := idx :: free
            role := Function.update (s.view free).role t .none
            trace := .recycled t idx :: (s.view free).trace
          } := by
      simp only [pushExchange, view_goto, view_emit, view_setFreeHead, AfterPush.role_resume]
      rfl
    rw [shape]
    exact .recycle t idx role
  refine ⟨idx :: free, .single step, inv.advance (t := t) (.single step) ?_ ?_ inv.versions ?_
    ?_ (Or.inr rfl) (fun _ => Or.inl rfl) (fun _ => Or.inl rfl)
    (fun _ _ _ member _ => member)⟩
  · exact inv.chain_recycled about
  · show packFreeHead (wrappingAdd (unpackFreeHead s.freeHead).1 1) idx
      = packFreeHead ((s.updates + 1) % 2 ^ 32)
          (unpackFreeHead (packFreeHead (wrappingAdd (unpackFreeHead s.freeHead).1 1) idx)).2
    rw [inv.advanced_tag, unpackFreeHead_pack (by omega) (by omega)]
  · intro other apart
    exact pc_goto_of_ne _ t apart _
  · simp only [pushExchange, pc_goto_self]
    exact after.fits_resume

theorem Inv.linked (inv : s.Inv free) {idx old : Nat} {after : AfterPush K E}
    (about : s.pc t = .pushStore idx old after)
    : s.Matched free
        ((s.setSlot idx { s.slots idx with nextFree := (unpackFreeHead old).2 }).goto t
          (.pushCas idx old after)) := by
  have role : (s.pc t).role.vacant idx := by
    rw [about]
    exact after.vacant_role
  have step : Ownership.Step (s.view free)
      (((s.setSlot idx { s.slots idx with nextFree := (unpackFreeHead old).2 }).goto t
        (.pushCas idx old after)).view free) := by
    rw [view_goto_same (by simp only [setSlot, about]; rfl), view_setSlot]
    exact .link t idx _ role
  refine ⟨free, .single step, inv.advance (t := t) (.single step) ?_ inv.head ?_ ?_ ?_
    (Or.inl ⟨rfl, rfl⟩) ?_ ?_ (fun _ _ _ member _ => member)⟩
  · refine inv.chain.congr fun other member => ?_
    have apart : other ≠ idx := by
      intro same
      exact inv.owned.vacant_not_free role (same ▸ (inv.owned.free other).mp member)
    simp [goto, setSlot, apart]
  · intro other
    by_cases same : other = idx
    · subst other
      simpa [goto, setSlot] using inv.versions idx
    · simpa [goto, setSlot, same] using inv.versions other
  · intro other apart
    exact pc_goto_of_ne _ t apart _
  · rw [pc_goto_self]
    simp [Pc.Fits, goto, setSlot]
  · intro other
    by_cases same : other = idx
    · subst other
      exact Or.inr (Role.holds_of_vacant role)
    · exact Or.inl (by simp [goto, setSlot, same])
  · intro other
    by_cases same : other = idx
    · subst other
      exact Or.inl (by simp [goto, setSlot])
    · exact Or.inl (by simp [goto, setSlot, same])

theorem Inv.pushed (inv : s.Inv free) (about : s.pc t = .pushZeroed)
    (room : s.len + 1 < 2 ^ 32)
    : s.Matched free (s.pushZeroed t) := by
  have grown : wrappingAdd s.len 1 = s.len + 1 := Nat.mod_eq_of_lt room
  have step : Ownership.Step (s.view free) ((s.pushZeroed t).view free) := by
    have shape : (s.pushZeroed t).view free
        = {
            s.view free with
            len := (s.view free).len + 1
            role := Function.update (s.view free).role t (.reserved (s.view free).len)
            trace := .pushed t (s.view free).len :: (s.view free).trace
          } := by
      simp only [pushZeroed, view_goto, view_emit, grown]
      rfl
    rw [shape]
    refine .push t ?_ room
    show (s.pc t).role = .none
    rw [about]
    rfl
  refine inv.matched_quiet (t := t) (.single step) (.of_same rfl rfl rfl rfl) ?_ ?_
  · intro other apart
    exact pc_goto_of_ne _ t apart _
  · simp only [pushZeroed, pc_goto_self]
    have unborn : (s.view free).phase s.len = .unborn :=
      (inv.owned.born s.len).mpr (Nat.le_refl _)
    have fits := inv.owned.slots s.len
    rw [unborn] at fits
    exact fits.1

-----------------------------------------------------------------------------------------
-- Counts and values
-----------------------------------------------------------------------------------------

omit [Fintype T] in
/-- The view of a step that updates a slot, records an event and goes on. -/
theorem view_act (s : Sys T K V E) (free : List Nat) (t : T) (idx : Nat) (slot : Slot V)
    (event : Event T K V) (pc : Pc K V E)
    : (((s.setSlot idx slot).emit event).goto t pc).view free
      = (s.view free).act t pc.role idx slot event := by
  simp only [view_goto, view_emit, view_setSlot]
  rfl

/-- A step of the protocol on the count or value of a slot is matched. -/
theorem Inv.acted (inv : s.Inv free) {idx : Nat} {slot : Slot V} {event : Event T K V}
    {pc : Pc K V E} (version : slot.version = (s.slots idx).version)
    (link : slot.nextFree = (s.slots idx).nextFree)
    (step : (s.view free).Step ((s.view free).act t pc.role idx slot event))
    (fits : pc.Fits s)
    : s.Matched free (((s.setSlot idx slot).emit event).goto t pc) := by
  rw [← view_act] at step
  refine inv.matched_quiet (t := t) (.single step)
    ((quiet_setSlot s version link).trans (.of_same rfl rfl rfl rfl)) ?_ ?_
  · intro other apart
    exact pc_goto_of_ne _ t apart _
  · rw [pc_goto_self]
    exact fits

theorem Inv.wrote (inv : s.Inv free) {idx version : Nat} {value : V}
    (about : s.pc t = .insertWrite idx version value)
    : s.Matched free (s.writeValue t idx version value) := by
  have fits := inv.fits t
  rw [about] at fits
  refine inv.acted rfl rfl ?_ fits
  exact .write t idx _ (show (s.pc t).role = _ by rw [about]; rfl) rfl

theorem Inv.armed (inv : s.Inv free) {idx version : Nat} {stored : Stored V}
    (about : s.pc t = .insertRefCount idx version stored)
    : s.Matched free (s.storeRefCount t idx version stored) := by
  have fits := inv.fits t
  rw [about] at fits
  refine inv.acted rfl rfl ?_ fits
  exact .arm t idx stored (show (s.pc t).role = _ by rw [about]; rfl)

theorem Inv.decremented (inv : s.Inv free) {idx : Nat} {needsDrop otherwise : Pc K V E}
    (decrements : (s.pc t).Decrements idx needsDrop otherwise)
    : s.Matched free (s.decRefCount t idx needsDrop otherwise) := by
  have fits := decrements.fits (s := s)
  rw [decRefCount]
  by_cases last : (s.slots idx).refCount = 1
  · rw [if_pos last]
    refine inv.acted rfl rfl ?_ fits.1
    rw [decrements.role_needsDrop]
    exact .release t idx decrements.references last
  · rw [if_neg last]
    refine inv.acted rfl rfl ?_ fits.2
    rw [decrements.role_otherwise]
    exact .giveUp t idx decrements.references last

theorem Inv.dropped (inv : s.Inv free) {idx : Nat} {after : AfterPush K E}
    (about : s.pc t = .dropValue idx after)
    : s.Matched free ((s.dropInnerValue t idx).goto t (.pushFreeIndex dbg idx after)) := by
  have fits := inv.fits t
  rw [about] at fits
  refine inv.acted rfl rfl ?_ Pc.fits_pushFreeIndex
  rw [Pc.role_pushFreeIndex, show after.role idx = _ from fits]
  exact .drop t idx (show (s.pc t).role = _ by rw [about]; rfl)

/-- A destructor that panics drops the value and loses the slot. -/
theorem Inv.dropPanicked (inv : s.Inv free) {idx : Nat} {after : AfterPush K E}
    (about : s.pc t = .dropValue idx after)
    : s.Matched free ((s.dropInnerValue t idx).unwind t) := by
  have holds : ((s.dropInnerValue t idx).pc t).holds = some idx := by
    show (s.pc t).holds = some idx
    rw [about]
    rfl
  have drop := Ownership.Step.drop (w := s.view free) t idx
    (show (s.pc t).role = _ by rw [about]; rfl)
  have leak := Ownership.Step.leak (w := (s.view free).act t (.emptied idx) idx
    { (s.view free).slots idx with data := none }
    (.dropped t idx ((s.view free).slots idx).data)) t idx (by
      simp [Ownership.act, Role.vacant])
  have shape : ((s.dropInnerValue t idx).unwind t).view free
      = {
          (s.view free).act t (.emptied idx) idx
            { (s.view free).slots idx with data := none }
            (.dropped t idx ((s.view free).slots idx).data) with
          role := Function.update (Function.update (s.view free).role t (.emptied idx)) t .none
          trace := .leaked t idx :: .dropped t idx ((s.view free).slots idx).data
            :: (s.view free).trace
        } := by
    rw [view_unwind_of_holds holds, dropInnerValue, view_emit, view_setSlot,
      Function.update_idem]
    rfl
  have run : Relation.ReflTransGen Ownership.Step (s.view free)
      (((s.dropInnerValue t idx).unwind t).view free) := by
    rw [shape]
    exact .tail (.single drop) leak
  have emptied : s.Quiet (s.setSlot idx { s.slots idx with data := none }) :=
    quiet_setSlot s rfl rfl
  refine inv.matched_quiet (t := t) run ?_ ?_ ?_
  · exact (emptied.trans (quiet_emit _ _)).trans (quiet_unwind _ t)
  · intro other apart
    exact pc_unwind_of_ne _ t apart
  · rw [pc_unwind_self]
    trivial

theorem Inv.acquired (inv : s.Inv free) {key : K} {getter : Getter} {refcount : Nat}
    (about : s.pc t = .acquireCas key getter refcount)
    (same : (s.slots (KeyData.idx key)).refCount = refcount)
    : s.Matched free
        ((s.setSlot (KeyData.idx key)
          { s.slots (KeyData.idx key) with refCount := refcount + 1 }).goto t
          (.acquireVersion key getter)) := by
  have fits := inv.fits t
  rw [about] at fits
  obtain ⟨positive, bounded⟩ := fits
  subst same
  have step : Ownership.Step (s.view free)
      (((s.setSlot (KeyData.idx key)
        {
          s.slots (KeyData.idx key) with
          refCount := (s.slots (KeyData.idx key)).refCount + 1
        }).goto t (.acquireVersion key getter)).view free) := by
    rw [view_goto, view_setSlot]
    refine .acquire t (KeyData.idx key) ?_ positive ?_
    · show (s.pc t).role = .none
      rw [about]
      rfl
    · show (s.slots (KeyData.idx key)).refCount + 1 < 2 ^ 32
      simp only [MAX_REFCOUNT] at bounded
      omega
  have raised : s.Quiet (s.setSlot (KeyData.idx key)
      {
        s.slots (KeyData.idx key) with
        refCount := (s.slots (KeyData.idx key)).refCount + 1
      }) := quiet_setSlot s rfl rfl
  refine inv.matched_quiet (t := t) (.single step) (raised.trans (quiet_goto _ t _)) ?_ ?_
  · intro other apart
    exact pc_goto_of_ne _ t apart _
  · rw [pc_goto_self]
    trivial

-----------------------------------------------------------------------------------------
-- Guards
-----------------------------------------------------------------------------------------

theorem Inv.guarded (inv : s.Inv free) {key : K} {getter : Getter}
    (about : s.pc t = .acquireVersion key getter)
    (same : (s.slots (KeyData.idx key)).version = KeyData.version key)
    : s.Matched free (s.acquireCheck t key getter) := by
  simp only [acquireCheck, if_pos same]
  generalize acquired : (⟨s.guardIds, key, getter.owning, (s.slots (KeyData.idx key)).data⟩
    : Guard K V) = guard
  have step : Ownership.Step (s.view free)
      ((((s.addGuard guard).answer t (getter.acquired key guard)).goto t
        (.ret (getter.acquired key guard))).view free) := by
    rw [view_goto, view_answer, view_addGuard]
    subst acquired
    exact .guard t ⟨s.guardIds, key, getter.owning, (s.slots (KeyData.idx key)).data⟩
      (show (s.pc t).role = _ by rw [about]; rfl) same rfl
  refine inv.matched_quiet (t := t) (.single step)
    (((quiet_addGuard s guard).trans (quiet_answer _ t _)).trans (quiet_goto _ t _)) ?_ ?_
  · intro other apart
    rw [pc_goto_of_ne _ t apart, pc_answer]
    rfl
  · rw [pc_goto_self]
    trivial

theorem Inv.cloned (inv : s.Inv free) {guard : Guard K V} (about : s.pc t = .cloneInc guard)
    (bounded : (s.slots (KeyData.idx guard.key)).refCount ≤ MAX_REFCOUNT)
    : s.Matched free (s.cloneGuard t guard) := by
  have member := inv.fits t
  rw [about] at member
  have room : (s.slots (KeyData.idx guard.key)).refCount + 1 < 2 ^ 32 := by
    simp only [MAX_REFCOUNT] at bounded
    omega
  have raised : wrappingAdd (s.slots (KeyData.idx guard.key)).refCount 1
      = (s.slots (KeyData.idx guard.key)).refCount + 1 := Nat.mod_eq_of_lt room
  simp only [cloneGuard, if_pos bounded, raised]
  have step : Ownership.Step (s.view free) _ :=
    .clone t guard ⟨s.guardIds, guard.key, true, guard.pointee⟩
      (show (s.pc t).role = _ by rw [about]; rfl)
      (Multiset.mem_coe.mpr (List.mem_append_left _ member)) rfl rfl room
  have quiet : s.Quiet (s.setSlot (KeyData.idx guard.key)
      {
        s.slots (KeyData.idx guard.key) with
        refCount := (s.slots (KeyData.idx guard.key)).refCount + 1
      }) := quiet_setSlot s rfl rfl
  refine inv.matched_quiet (t := t) ?_
    (((quiet.trans (quiet_addGuard _ ⟨s.guardIds, guard.key, true, guard.pointee⟩)).trans
      (quiet_answer _ t _)).trans (quiet_goto _ t _)) ?_ ?_
  · rw [view_goto_same (by simp [addGuard, setSlot, about, Pc.role]), view_answer,
      view_addGuard, view_setSlot]
    exact .single step
  · intro other apart
    rw [pc_goto_of_ne _ t apart, pc_answer]
    rfl
  · rw [pc_goto_self]
    trivial

omit [Key K] [DecidableEq T] [Fintype T] in
/-- Taking the first guard with an id leaves the others. -/
theorem perm_eraseP_of_find? {guards : List (Guard K V)} {id : Nat} {guard : Guard K V}
    (found : guards.find? (·.id == id) = some guard)
    : guards.Perm (guard :: guards.eraseP (·.id == id)) := by
  induction guards with
  | nil => cases found
  | cons first rest ih =>
      by_cases named : (first.id == id) = true
      · simp only [List.find?_cons, named, Option.some.injEq] at found
        subst found
        simp only [List.eraseP_cons, named]
        exact .refl _
      · simp only [List.find?_cons, named] at found
        simp only [List.eraseP_cons, named]
        exact ((ih found).cons first).trans (.swap guard first _)

omit [Key K] [DecidableEq T] [Fintype T] in
/-- Guards of other ids survive the erasure. -/
theorem mem_eraseP_of_ne {guards : List (Guard K V)} {id : Nat} {guard : Guard K V}
    (member : guard ∈ guards) (apart : guard.id ≠ id)
    : guard ∈ guards.eraseP (·.id == id) :=
  (List.mem_eraseP_of_neg (by simpa using apart)).mpr member

/-- A step that only takes a guard nobody borrows out of the hands of the users. -/
theorem Inv.matched_taking (inv : s.Inv free) (id : Nat)
    (run : Relation.ReflTransGen Ownership.Step (s.view free) (s'.view free))
    (slots : s'.slots = s.slots) (freeHead : s'.freeHead = s.freeHead)
    (updates : s'.updates = s.updates) (guards : s'.guards = s.guards.eraseP (·.id == id))
    (unborrowed : ∀ other, (s.pc other).borrows ≠ some id)
    (pcs : ∀ other ≠ t, s'.pc other = s.pc other) (mine : (s'.pc t).Fits s')
    : s.Matched free s' :=
  ⟨free, run, inv.advance (t := t) run
    (by rw [slots, freeHead]; exact inv.chain) (by rw [freeHead, updates]; exact inv.head)
    (by rw [slots]; exact inv.versions) pcs mine (Or.inl ⟨updates, freeHead⟩)
    (fun idx => Or.inl (by rw [slots])) (fun idx => Or.inl (by rw [slots]))
    (fun other _ guard member borrows => by
      rw [guards]
      refine mem_eraseP_of_ne member fun same => unborrowed other ?_
      rw [borrows, same])⟩

theorem Inv.beganDrop (inv : s.Inv free) {id : Nat} {guard : Guard K V}
    (calls : (s.pc t).Calls (.dropGuard id : Op K))
    (found : s.guards.find? (·.id == id) = some guard)
    (unborrowed : ∀ other, (s.pc other).borrows ≠ some id)
    : s.Matched free
        ((({ s with guards := s.guards.eraseP (·.id == id) }.begin t (.dropGuard id)).answer t
          .done).goto t (.waitForChunk (KeyData.idx guard.key) (.unguardDec guard))) := by
  have taken : (s.view free).guards
      = guard ::ₘ (s.guards.eraseP (·.id == id) ++ s.forgotten : List (Guard K V)) :=
    Multiset.coe_eq_coe.mpr ((perm_eraseP_of_find? found).append_right s.forgotten)
  have step : Ownership.Step (s.view free) _ := .unguard t guard _ calls.role taken
  refine inv.matched_taking (t := t) id ?_ ?_ ?_ ?_ ?_ unborrowed ?_ ?_
  · rw [view_goto, view_answer, view_begin]
    exact .single step
  · exact (alike_answer _ t _).slots
  · exact (alike_answer _ t _).freeHead
  · exact (alike_answer _ t _).updates
  · exact (alike_answer _ t _).guards
  · intro other apart
    rw [pc_goto_of_ne _ t apart, pc_answer]
    rfl
  · rw [pc_goto_self]
    trivial

/-- A forgotten guard goes on counting as a reference. -/
theorem Inv.beganForget (inv : s.Inv free) {id : Nat} {guard : Guard K V}
    (calls : (s.pc t).Calls (.forgetGuard id : Op K))
    (found : s.guards.find? (·.id == id) = some guard)
    (unborrowed : ∀ other, (s.pc other).borrows ≠ some id)
    : s.Matched free
        ((({
            s with
            guards := s.guards.eraseP (·.id == id)
            forgotten := guard :: s.forgotten
          }.begin t (.forgetGuard id)).answer t .done).goto t (.ret .done)) := by
  have kept : (s.view free).guards
      = (s.guards.eraseP (·.id == id) ++ guard :: s.forgotten : List (Guard K V)) :=
    Multiset.coe_eq_coe.mpr
      (((perm_eraseP_of_find? found).append_right s.forgotten).trans List.perm_middle.symm)
  refine inv.matched_taking (t := t) id ?_ ?_ ?_ ?_ ?_ unborrowed ?_ ?_
  · rw [view_goto_same (by rw [pc_answer]; exact calls.role.symm), view_answer, view_begin]
    have same : ({
        s with
        guards := s.guards.eraseP (·.id == id)
        forgotten := guard :: s.forgotten
      } : Sys T K V E).view free = s.view free := by
      simp only [view] at kept ⊢
      rw [kept]
    rw [same]
  · exact (alike_answer _ t _).slots
  · exact (alike_answer _ t _).freeHead
  · exact (alike_answer _ t _).updates
  · exact (alike_answer _ t _).guards
  · intro other apart
    rw [pc_goto_of_ne _ t apart, pc_answer]
    rfl
  · rw [pc_goto_self]
    trivial

/-- A call that takes effect as it is made. -/
theorem Inv.beganAnswered (inv : s.Inv free) {op : Op K} {res : Res K V E} {pc : Pc K V E}
    (calls : (s.pc t).Calls op) (role : pc.role = .none) (mine : pc.Fits s)
    : s.Matched free (((s.begin t op).answer t res).goto t pc) := by
  have same : (((s.begin t op).answer t res).goto t pc).view free = s.view free := by
    rw [view_goto_same (by rw [pc_answer, role]; exact calls.role.symm), view_answer, view_begin]
  have quiet : s.Quiet (s.begin t op) := .of_same rfl rfl rfl rfl
  refine inv.matched_silent (t := t) same
    ((quiet.trans (quiet_answer _ t res)).trans (quiet_goto _ t pc)) ?_ ?_
  · intro other apart
    rw [pc_goto_of_ne _ t apart, pc_answer]
    rfl
  · rw [pc_goto_self]
    exact mine

-----------------------------------------------------------------------------------------
-- Versions
-----------------------------------------------------------------------------------------

/-- Changing the version of a slot that nobody else holds is matched if the protocol takes
the step.
-/
theorem Inv.matched_version (inv : s.Inv free) {idx version : Nat} {event : Event T K V}
    {res : Res K V E} {pc : Pc K V E} (bound : version < 2 ^ 32)
    (alone
      : (s.pc t).role.holds = some idx ∨ ((s.view free).phase idx).holder = none)
    (step
      : (s.view free).Step
          ((s.view free).act t pc.role idx { s.slots idx with version := version } event))
    (mine : ∀ state : Sys T K V E, pc.Fits state)
    : s.Matched free
        ((((s.setSlot idx { s.slots idx with version := version }).emit event).answer t
          res).goto t pc) := by
  generalize reached : (((s.setSlot idx { s.slots idx with version := version }).emit
    event).answer t res).goto t pc = s'
  have shape : s'.view free
      = (s.view free).act t pc.role idx { s.slots idx with version := version } event := by
    rw [← reached, view_goto, view_answer, view_emit, view_setSlot]
    rfl
  have alike : ((s.setSlot idx { s.slots idx with version := version }).emit event).Alike s' :=
    reached ▸ alike_answer_goto _ t res pc
  have slots : s'.slots
      = Function.update s.slots idx { s.slots idx with version := version } := alike.slots
  have freeHead : s'.freeHead = s.freeHead := alike.freeHead
  have updates : s'.updates = s.updates := alike.updates
  have guards : s'.guards = s.guards := alike.guards
  have links (other : Nat) : (s'.slots other).nextFree = (s.slots other).nextFree := by
    rw [slots]
    by_cases same : other = idx
    · subst other
      rw [Function.update_self]
    · rw [Function.update_of_ne same]
  refine ⟨free, .single (shape ▸ step), inv.advance (t := t) (.single (shape ▸ step)) ?_ ?_ ?_
    ?_ ?_ (Or.inl ⟨updates, freeHead⟩) (fun other => Or.inl (links other)) ?_ ?_⟩
  · rw [freeHead]
    exact inv.chain.congr fun other _ => links other
  · rw [freeHead, updates]
    exact inv.head
  · intro other
    rw [slots]
    by_cases same : other = idx
    · subst other
      rw [Function.update_self]
      exact bound
    · rw [Function.update_of_ne same]
      exact inv.versions other
  · intro other apart
    rw [← reached, pc_goto_of_ne _ t apart, pc_answer]
    rfl
  · rw [← reached, pc_goto_self]
    exact mine _
  · intro other
    by_cases same : other = idx
    · subst other
      exact Or.inr alone
    · rw [slots, Function.update_of_ne same]
      exact Or.inl rfl
  · intro other _ guard member _
    rw [guards]
    exact member

/-- The key that an inserter is about to publish: an odd version of its slot, which has an
even one and contains the value.
-/
theorem Inv.publishing (inv : s.Inv free) {idx version : Nat} {stored : Stored V}
    (about : s.pc t = .insertPublish idx version stored)
    : KeyData.idx (KeyData.new idx version : K) = idx
      ∧ KeyData.version (KeyData.new idx version : K) = version
      ∧ (s.slots idx).version % 2 = 0
      ∧ version = (s.slots idx).version ||| 1
      ∧ version < 2 ^ 32
      ∧ (s.slots idx).data = some stored
      ∧ idx < s.len := by
  have fits := inv.fits t
  rw [about] at fits
  have occupied : version = (s.slots idx).version ||| 1 := fits
  have odd : version % 2 = 1 := occupied ▸ or_one_odd _
  have bound : version < 2 ^ 32 := occupied ▸ or_one_lt (inv.versions idx)
  have role : (s.pc t).role = .armed idx stored := by
    rw [about]
    rfl
  have within : idx < s.len := inv.owned.holds_lt_len (t := t)
    (show (s.pc t).role.holds = some idx by rw [role]; rfl)
  have small : idx < 2 ^ 32 := Nat.lt_trans within inv.owned.bound
  have slot := inv.owned.slots idx
  rw [inv.owned.phase_armed (t := t) role] at slot
  exact ⟨KeyData.idx_new small bound odd, KeyData.version_new small bound odd, slot.1,
    occupied, bound, slot.2.2, within⟩

theorem Inv.published (inv : s.Inv free) {idx version : Nat} {stored : Stored V}
    (about : s.pc t = .insertPublish idx version stored)
    : s.Matched free (s.publish t idx version stored) := by
  obtain ⟨place, stamp, _, occupied, bound, _, _⟩ := inv.publishing about
  have role : (s.pc t).role = .armed idx stored := by
    rw [about]
    rfl
  refine inv.matched_version bound (Or.inl (by rw [role]; rfl)) ?_ (fun _ => trivial)
  have step := Ownership.Step.publish (w := s.view free) t (KeyData.new idx version) stored
    (by rw [place]; exact role) (by rw [place, stamp]; exact occupied)
  rw [place, stamp] at step
  exact step

theorem Inv.retired (inv : s.Inv free) {key : K} {current : Nat}
    (about : s.pc t = .removeCas key current)
    (same : (s.slots (KeyData.idx key)).version = current)
    : s.Matched free (s.removeExchange t key current) := by
  have fits := inv.fits t
  rw [about] at fits
  have isVersion : current = KeyData.version key := fits
  subst isVersion
  simp only [removeExchange, if_pos same]
  obtain ⟨found, stored, phase⟩ :=
    inv.owned.live_of_version (KeyData.idx key) same (KeyData.version_odd key)
  refine inv.matched_version ?_ (Or.inr (by rw [phase]; rfl)) ?_ (fun _ => trivial)
  · simp only [wrappingAdd]
    omega
  · refine .retire t key ?_ same
    show (s.pc t).role = .none
    rw [about]
    rfl

/-- A step that only notes an event about no slot is matched. -/
theorem Inv.noted (inv : s.Inv free) (event : Event T K V) {pc : Pc K V E}
    (apart : event.slot = none)
    (view
      : s'.view free = { s.view free with trace := event :: (s.view free).trace })
    (quiet : s.Quiet s') (pcs : s'.pc = Function.update s.pc t pc) (fits : pc.Fits s)
    : s.Matched free s' := by
  refine inv.matched_quiet (t := t) (view ▸ .single (.note event apart)) quiet ?_ ?_
  · intro other self
    rw [pcs, Function.update_of_ne self]
  · rw [pcs, Function.update_self]
    exact fits

/-- A step that only changes the element counter and notes so is matched. -/
theorem Inv.recounted (inv : s.Inv free) {count : Nat} {event : Event T K V} {pc : Pc K V E}
    (apart : event.slot = none) (role : pc.role = (s.pc t).role) (fits : pc.Fits s)
    : s.Matched free (((s.setNumElems count).emit event).goto t pc) := by
  refine inv.noted (t := t) event apart ?_ (.of_same rfl rfl rfl rfl) rfl fits
  exact view_goto_same (s := (s.setNumElems count).emit event) role

/-- Every move within the limits is matched, by cases on the move. -/
theorem Inv.moves (inv : s.Inv free) (within : s.Within t) (moves : s.Moves dbg t s')
    : s.Matched free s' := by
  cases moves with
  | stay => exact ⟨free, .refl, inv⟩
  | go pc goes => exact inv.go goes
  | answered res pc answers => exact inv.answered answers
  | failed fails => exact inv.failed fails
  | popped old next seen about same =>
      exact inv.popped about same (within.tag old next seen about same)
  | pushed about => exact inv.pushed about (within.room about)
  | wrote idx version value about => exact inv.wrote about
  | armed idx version stored about => exact inv.armed about
  | published idx version stored about => exact inv.published about
  | counted key stored about => exact inv.recounted rfl (by rw [about]; rfl) trivial
  | allocated chunk after about =>
      have fits := inv.fits t
      rw [about] at fits
      refine inv.noted (t := t) (.allocated t chunk s.buffers (chunkCapacity chunk)) rfl ?_
        (.of_same rfl rfl rfl rfl) rfl fits
      refine view_goto_same (t := t)
        (s := { s with buffers := s.buffers + 1 }.emit
          (.allocated t chunk s.buffers (chunkCapacity chunk))) ?_
      simp [emit, about, Pc.role]
  | installed chunk new after about absent =>
      have fits := inv.fits t
      rw [about] at fits
      refine inv.noted (t := t) (.installed t chunk new) rfl ?_
        (.of_same rfl rfl rfl rfl) rfl (AfterEnsure.fits_resume fits)
      exact view_goto_same (s := (s.setChunk chunk new).emit (.installed t chunk new))
        (by simp [emit, setChunk, about, Pc.role])
  | deallocated new after about =>
      have fits := inv.fits t
      rw [about] at fits
      refine inv.noted (t := t) (.deallocated t new) rfl ?_
        (.of_same rfl rfl rfl rfl) rfl (AfterEnsure.fits_resume fits)
      exact view_goto_same (s := s.emit (.deallocated t new))
        (by simp [emit, about, Pc.role])
  | linked idx old after about => exact inv.linked about
  | recycled idx old after about same => exact inv.recycled about same
  | dropped idx after about => exact inv.dropped about
  | dropPanicked idx after about => exact inv.dropPanicked about
  | retired key current about same => exact inv.retired about same
  | decremented idx needsDrop otherwise decrements => exact inv.decremented decrements
  | discounted key about => exact inv.recounted rfl (by rw [about]; rfl) trivial
  | acquired key getter refcount about same => exact inv.acquired about same
  | guarded key getter about same => exact inv.guarded about same
  | cloned guard about => exact inv.cloned about (within.clone guard about)
  | began op pc calls starts => exact inv.began calls starts
  | beganReserve additional calls => exact inv.beganAnswered calls rfl trivial
  | beganDeref id guard calls found => exact inv.beganAnswered calls rfl trivial
  | beganDrop id guard calls found unborrowed => exact inv.beganDrop calls found unborrowed
  | beganForget id guard calls found unborrowed =>
      exact inv.beganForget calls found unborrowed
  | returned res about => exact inv.returned about
  | unwound about => exact inv.unwound about

/-- A state of the program and the ownership state it implements. -/
def Implements (s : Sys T K V E) (w : Ownership T K V) : Prop :=
  ∃ free, w = s.view free ∧ s.Inv free

/-- The empty map implements the empty ownership state. -/
theorem Inv.withKey : (Sys.withKey T K V E).Inv [] where
  owned := Ownership.Inv.empty
  chain := by
    show (unpackFreeHead (packFreeHead 0 SENTINEL)).2 = SENTINEL
    decide
  head := by
    show packFreeHead 0 SENTINEL
      = packFreeHead (0 % 2 ^ 32) (unpackFreeHead (packFreeHead 0 SENTINEL)).2
    decide
  versions := fun _ => by
    show 0 < 2 ^ 32
    decide
  fits := fun _ => trivial

theorem Inv.next (inv : s.Inv free) (next : Next dbg s s') : s.Matched free s' := by
  obtain ⟨t, choice, within, found⟩ := next
  exact inv.moves within (step_moves found)

/-- The program refines the ownership protocol. -/
theorem simulates
    : Library.Simulates (Next (T := T) (K := K) (V := V) (E := E) dbg) Ownership.Step
        Implements := by
  rintro s s' w ⟨free, rfl, inv⟩ next
  obtain ⟨free', run, inv'⟩ := inv.next next
  exact ⟨s'.view free', run, free', rfl, inv'⟩

/-- Every reachable state keeps the invariant, by induction on the run. -/
theorem Reachable.inv (reachable : Reachable dbg s) : ∃ free, s.Inv free := by
  obtain ⟨w, _, free, _, inv⟩ := simulates.run ⟨[], rfl, Inv.withKey⟩ reachable
  exact ⟨free, inv⟩

end Sys

end AtomicSlotMap
