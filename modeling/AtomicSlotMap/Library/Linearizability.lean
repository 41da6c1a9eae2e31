import Mathlib.Data.List.Basic
import Mathlib.Data.List.Nodup
import Mathlib.Logic.Function.Basic

/-! Linearizability of concurrent histories. A history has calls and returns; a recorded one
also has, between the two, the instant at which each call took effect.
-/

namespace Library

variable {S Op Res : Type*}

/-- Events of a history. Calls are numbered; a call may also end by unwinding. -/
inductive Record (Op Res : Type*)
  | call (id : Nat) (op : Op)
  | lin (id : Nat) (op : Op) (res : Res)
  | ret (id : Nat) (res : Res)
  | unwound (id : Nat)
deriving DecidableEq

/-- What a call did when it took effect. -/
structure Effect (Op Res : Type*) where
  id : Nat
  op : Op
  res : Res

/-- The call an event ends. -/
def Record.ends : Record Op Res → Option Nat
  | .ret id _ | .unwound id => some id
  | _ => none

/-- The effect an event records. -/
def Record.effect? : Record Op Res → Option (Effect Op Res)
  | .lin id op res => some ⟨id, op, res⟩
  | _ => none

/-- The effects of a history, in the order in which they happened. -/
def effects (history : List (Record Op Res)) : List (Effect Op Res) :=
  history.filterMap Record.effect?

/-- The return an event records. -/
def Record.return? : Record Op Res → Option (Nat × Res)
  | .ret id res => some (id, res)
  | _ => none

/-- The results that calls have returned, with the numbers of the calls. -/
def returns (history : List (Record Op Res)) : List (Nat × Res) :=
  history.filterMap Record.return?

/-- Whether a call has ended. -/
def Ended (history : List (Record Op Res)) (id : Nat) : Prop :=
  ∃ event ∈ history, event.ends = some id

@[simp] theorem mem_effects {history : List (Record Op Res)} {effect : Effect Op Res}
    : effect ∈ effects history ↔ .lin effect.id effect.op effect.res ∈ history := by
  simp only [effects, List.mem_filterMap]
  constructor
  · rintro ⟨event, member, found⟩
    cases event <;> cases found
    exact member
  · exact fun member => ⟨_, member, rfl⟩

@[simp] theorem mem_returns {history : List (Record Op Res)} {id : Nat} {res : Res}
    : (id, res) ∈ returns history ↔ .ret id res ∈ history := by
  simp only [returns, List.mem_filterMap]
  constructor
  · rintro ⟨event, member, found⟩
    cases event <;> cases found
    exact member
  · exact fun member => ⟨_, member, rfl⟩

/-- An event that is no return adds none. -/
theorem returns_concat {history : List (Record Op Res)} {event : Record Op Res}
    (silent : event.return? = none)
    : returns (history ++ [event]) = returns history := by
  rw [returns, List.filterMap_append, List.filterMap_cons_none silent, List.filterMap_nil,
    List.append_nil, returns]

theorem effects_append (history later : List (Record Op Res))
    : effects (history ++ later) = effects history ++ effects later :=
  List.filterMap_append

/-- An event that is no effect adds none. -/
theorem effects_concat {history : List (Record Op Res)} {event : Record Op Res}
    (silent : event.effect? = none)
    : effects (history ++ [event]) = effects history := by
  rw [effects_append, effects, effects, List.filterMap_cons_none silent, List.filterMap_nil,
    List.append_nil]

@[simp] theorem effects_concat_lin (history : List (Record Op Res)) (id : Nat) (op : Op)
    (res : Res)
    : effects (history ++ [.lin id op res]) = effects history ++ [⟨id, op, res⟩] :=
  effects_append history _

/-- A later event ends no more calls than before unless it is an end itself. -/
theorem ended_concat {history : List (Record Op Res)} {event : Record Op Res} {id : Nat}
    : Ended (history ++ [event]) id ↔ Ended history id ∨ event.ends = some id := by
  simp only [Ended, List.mem_append, List.mem_singleton]
  constructor
  · rintro ⟨other, member | rfl, ends⟩
    · exact Or.inl ⟨other, member, ends⟩
    · exact Or.inr ends
  · rintro (⟨other, member, ends⟩ | ends)
    · exact ⟨other, Or.inl member, ends⟩
    · exact ⟨event, Or.inr rfl, ends⟩

/-- A pair that does not end with the last event was there before it. -/
theorem sublist_of_concat {α : Type*} {first second last : α} {events : List α}
    (apart : second ≠ last) (before : [first, second].Sublist (events ++ [last]))
    : [first, second].Sublist events := by
  obtain ⟨front, back, split, left, right⟩ := List.sublist_append_iff.mp before
  rcases List.sublist_singleton.mp right with rfl | rfl
  · rw [List.append_nil] at split
    exact split ▸ left
  · have ending : [first] ++ [second] = front ++ [last] := split
    obtain ⟨_, same⟩ := List.append_inj' ending rfl
    exact absurd (List.singleton_inj.mp same) apart

-----------------------------------------------------------------------------------------
-- Recorded histories
-----------------------------------------------------------------------------------------

/-- A history in which every call takes effect at most once, between its call and its end,
and returns only the result it had then.
-/
inductive Recorded : List (Record Op Res) → Prop
  | nil : Recorded []
  | call {history : List (Record Op Res)} (id : Nat) (op : Op) (recorded : Recorded history)
    (fresh : ∀ other, .call id other ∉ history)
    : Recorded (history ++ [.call id op])
  | lin {history : List (Record Op Res)} (id : Nat) (op : Op) (res : Res)
    (recorded : Recorded history) (called : .call id op ∈ history)
    (first : ∀ other earlier, .lin id other earlier ∉ history) (running : ¬ Ended history id)
    : Recorded (history ++ [.lin id op res])
  | ret {history : List (Record Op Res)} (id : Nat) (op : Op) (res : Res)
    (recorded : Recorded history) (answered : .lin id op res ∈ history)
    (running : ¬ Ended history id)
    : Recorded (history ++ [.ret id res])
  | unwound {history : List (Record Op Res)} (id : Nat) (op : Op)
    (recorded : Recorded history) (called : .call id op ∈ history)
    (running : ¬ Ended history id)
    : Recorded (history ++ [.unwound id])

namespace Recorded

variable {history : List (Record Op Res)}

/-- What took effect had been called, by induction on the history. -/
theorem called_of_lin (recorded : Recorded history) {id : Nat} {op : Op} {res : Res}
    (member : .lin id op res ∈ history)
    : .call id op ∈ history := by
  induction recorded with
  | nil => cases member
  | lin id' op' res' _ called _ _ ih =>
      rcases List.mem_append.mp member with earlier | now
      · exact List.mem_append_left _ (ih earlier)
      · cases List.mem_singleton.mp now
        exact List.mem_append_left _ called
  | call _ _ _ _ ih | ret _ _ _ _ _ _ ih | unwound _ _ _ _ _ ih =>
      rcases List.mem_append.mp member with earlier | now
      · exact List.mem_append_left _ (ih earlier)
      · cases List.mem_singleton.mp now

/-- What ended had been called, by induction on the history. -/
theorem called_of_ended (recorded : Recorded history) {id : Nat} (ended : Ended history id)
    : ∃ op, .call id op ∈ history := by
  induction recorded with
  | nil =>
      obtain ⟨_, member, _⟩ := ended
      cases member
  | call id' op _ _ ih =>
      obtain ⟨op, called⟩ := ih ((ended_concat.mp ended).resolve_right nofun)
      exact ⟨op, List.mem_append_left _ called⟩
  | lin id' op res _ _ _ _ ih =>
      obtain ⟨op, called⟩ := ih ((ended_concat.mp ended).resolve_right nofun)
      exact ⟨op, List.mem_append_left _ called⟩
  | ret id' op res earlier answered _ ih =>
      rcases ended_concat.mp ended with before | now
      · obtain ⟨op, called⟩ := ih before
        exact ⟨op, List.mem_append_left _ called⟩
      · cases now
        exact ⟨op, List.mem_append_left _ (earlier.called_of_lin answered)⟩
  | unwound id' op earlier called _ ih =>
      rcases ended_concat.mp ended with before | now
      · obtain ⟨op, called⟩ := ih before
        exact ⟨op, List.mem_append_left _ called⟩
      · cases now
        exact ⟨op, List.mem_append_left _ called⟩

/-- What returned had taken effect with that result, by induction on the history. -/
theorem lin_of_ret (recorded : Recorded history) {id : Nat} {res : Res}
    (member : .ret id res ∈ history)
    : ∃ op, .lin id op res ∈ history := by
  induction recorded with
  | nil => cases member
  | ret id' op res' _ answered _ ih =>
      rcases List.mem_append.mp member with earlier | now
      · obtain ⟨op, took⟩ := ih earlier
        exact ⟨op, List.mem_append_left _ took⟩
      · cases List.mem_singleton.mp now
        exact ⟨op, List.mem_append_left _ answered⟩
  | call _ _ _ _ ih | lin _ _ _ _ _ _ _ ih | unwound _ _ _ _ _ ih =>
      rcases List.mem_append.mp member with earlier | now
      · obtain ⟨op, took⟩ := ih earlier
        exact ⟨op, List.mem_append_left _ took⟩
      · cases List.mem_singleton.mp now

/-- No call takes effect twice, by induction on the history. -/
theorem distinct (recorded : Recorded history)
    : ((effects history).map Effect.id).Nodup := by
  induction recorded with
  | nil => exact List.nodup_nil
  | call _ _ _ _ ih | ret _ _ _ _ _ _ ih | unwound _ _ _ _ _ ih =>
      rw [effects_concat rfl]
      exact ih
  | lin id op res _ _ first _ ih =>
      rw [effects_concat_lin, List.map_append]
      refine List.Nodup.append ih (List.nodup_singleton _) ?_
      rintro other earlier now
      obtain ⟨effect, member, same⟩ := List.mem_map.mp earlier
      cases List.mem_singleton.mp now
      have took := mem_effects.mp member
      rw [show effect.id = id from same] at took
      exact first effect.op effect.res took

/-- A call takes effect with one result only. -/
theorem lin_unique (recorded : Recorded history) {id : Nat} {op op' : Op} {res res' : Res}
    (first : .lin id op res ∈ history) (second : .lin id op' res' ∈ history)
    : op = op' ∧ res = res' := by
  have member : (⟨id, op, res⟩ : Effect Op Res) ∈ effects history := mem_effects.mpr first
  have member' : (⟨id, op', res'⟩ : Effect Op Res) ∈ effects history := mem_effects.mpr second
  cases List.inj_on_of_nodup_map recorded.distinct member member' rfl
  exact ⟨rfl, rfl⟩

/-- No call returns twice, by induction on the history. -/
theorem nodup_returns (recorded : Recorded history)
    : ((returns history).map Prod.fst).Nodup := by
  induction recorded with
  | nil => exact List.nodup_nil
  | call _ _ _ _ ih | lin _ _ _ _ _ _ _ ih | unwound _ _ _ _ _ ih =>
      rw [returns_concat rfl]
      exact ih
  | ret id op res _ _ running ih =>
      rw [returns, List.filterMap_append, List.map_append]
      refine List.Nodup.append ih (List.nodup_singleton _) ?_
      rintro other earlier now
      obtain ⟨⟨number, result⟩, member, rfl⟩ := List.mem_map.mp earlier
      cases List.mem_singleton.mp now
      exact running ⟨_, mem_returns.mp member, rfl⟩

/-- If every call that took effect with a result of some kind has returned it, then as many
calls have returned such results.
-/
theorem countP_returns (recorded : Recorded history) (kind : Res → Bool)
    (returned
      : ∀ effect ∈ effects history, kind effect.res = true → .ret effect.id effect.res ∈ history)
    : (returns history).countP (kind ·.2) = (effects history).countP (kind ·.res) := by
  have results : List.Perm ((returns history).filter (kind ·.2))
      (((effects history).filter (kind ·.res)).map fun effect => (effect.id, effect.res)) := by
    apply (List.perm_ext_iff_of_nodup ?_ ?_).mpr
    · rintro ⟨id, res⟩
      simp only [List.mem_filter, List.mem_map, mem_returns, Prod.mk.injEq]
      constructor
      · rintro ⟨member, kept⟩
        obtain ⟨op, took⟩ := recorded.lin_of_ret member
        exact ⟨⟨id, op, res⟩, ⟨mem_effects.mpr took, kept⟩, rfl, rfl⟩
      · rintro ⟨effect, ⟨member, kept⟩, rfl, rfl⟩
        exact ⟨returned effect member kept, kept⟩
    · exact .filter _ (.of_map _ recorded.nodup_returns)
    · refine .of_map Prod.fst ?_
      rw [List.map_map]
      exact recorded.distinct.sublist (List.filter_sublist.map _)
  rw [List.countP_eq_length_filter, results.length_eq, List.length_map,
    List.countP_eq_length_filter]

/-- A call made after another one ended takes effect after it, by induction on the history.
Only a step that takes effect can bring a new pair into the order, and it is never the one
that had ended.
-/
theorem realTime (recorded : Recorded history) {earlier later : Effect Op Res}
    {ending : Record Op Res} (first : earlier ∈ effects history)
    (second : later ∈ effects history) (ends : ending.ends = some earlier.id)
    (before : [ending, .call later.id later.op].Sublist history)
    : [earlier, later].Sublist (effects history) := by
  induction recorded with
  | nil => cases first
  | @call history id op prior fresh ih =>
      rw [effects_concat rfl] at first second ⊢
      refine ih first second (sublist_of_concat ?_ before)
      -- the new call has not taken effect, so it is not the later one
      intro same
      cases same
      exact fresh later.op (prior.called_of_lin (mem_effects.mp second))
  | ret id op res _ _ _ ih =>
      rw [effects_concat rfl] at first second ⊢
      refine ih first second (sublist_of_concat ?_ before)
      simp
  | unwound id op _ _ _ ih =>
      rw [effects_concat rfl] at first second ⊢
      refine ih first second (sublist_of_concat ?_ before)
      simp
  | @lin history id op res prior called once running ih =>
      have within : [ending, .call later.id later.op].Sublist history := by
        refine sublist_of_concat ?_ before
        simp
      have ended : Ended history earlier.id :=
        ⟨ending, within.subset List.mem_cons_self, ends⟩
      rw [effects_concat_lin] at first second ⊢
      have took : earlier ∈ effects history := by
        rcases List.mem_append.mp first with member | now
        · exact member
        · cases List.mem_singleton.mp now
          exact absurd ended running
      rcases List.mem_append.mp second with member | now
      · exact (ih took member within).trans (List.sublist_append_left _ _)
      · cases List.mem_singleton.mp now
        exact (List.singleton_sublist.mpr took).append (.refl _)

end Recorded

-----------------------------------------------------------------------------------------
-- Linearizability
-----------------------------------------------------------------------------------------

/-- A run of a sequential object that gives the recorded results. -/
def Behaves (step : S → Op → Res → S → Prop) : S → List (Effect Op Res) → S → Prop
  | state, [], final => state = final
  | state, effect :: rest, final =>
      ∃ middle, step state effect.op effect.res middle ∧ Behaves step middle rest final

/-- One more effect at the end of a run, by induction on the run. -/
theorem Behaves.concat {step : S → Op → Res → S → Prop} {state middle final : S}
    {order : List (Effect Op Res)} {effect : Effect Op Res}
    (run : Behaves step state order middle) (last : step middle effect.op effect.res final)
    : Behaves step state (order ++ [effect]) final := by
  induction order generalizing state with
  | nil =>
      cases run
      exact ⟨final, last, rfl⟩
  | cons head rest ih =>
      obtain ⟨next, first, run⟩ := run
      exact ⟨next, first, ih run⟩

/-- A run splits where its effects do, by induction on the first part. -/
theorem Behaves.split {step : S → Op → Res → S → Prop} {state final : S}
    {order later : List (Effect Op Res)} (run : Behaves step state (order ++ later) final)
    : ∃ middle, Behaves step state order middle ∧ Behaves step middle later final := by
  induction order generalizing state with
  | nil => exact ⟨state, rfl, run⟩
  | cons head rest ih =>
      obtain ⟨next, first, run⟩ := run
      obtain ⟨middle, front, back⟩ := ih run
      exact ⟨middle, ⟨next, first, front⟩, back⟩

/-- Effects that leave the state alone may be left out of a run, by induction on the effects. -/
theorem Behaves.filter {step : S → Op → Res → S → Prop} {changes : Effect Op Res → Bool}
    {state final : S} {order : List (Effect Op Res)} (run : Behaves step state order final)
    (still
      : ∀ state effect after, step state effect.op effect.res after → changes effect = false →
          after = state)
    : Behaves step state (order.filter changes) final := by
  induction order generalizing state with
  | nil => exact run
  | cons head rest ih =>
      obtain ⟨next, first, run⟩ := run
      by_cases changed : changes head = true
      · rw [List.filter_cons_of_pos changed]
        exact ⟨next, first, ih run⟩
      · rw [List.filter_cons_of_neg changed]
        rw [still state head next first (Bool.eq_false_iff.mpr changed)] at run
        exact ih run

/-- A run leads to one state if its steps do, by induction on the effects. -/
theorem Behaves.unique {step : S → Op → Res → S → Prop} {state final final' : S}
    {order : List (Effect Op Res)}
    (functional
      : ∀ state op res one other, step state op res one → step state op res other → one = other)
    (run : Behaves step state order final) (run' : Behaves step state order final')
    : final = final' := by
  induction order generalizing state with
  | nil => exact run.symm.trans run'
  | cons head rest ih =>
      obtain ⟨next, first, run⟩ := run
      obtain ⟨next', first', run'⟩ := run'
      cases functional _ _ _ _ _ first first'
      exact ih run run'

/-- A total order of the calls of a history that explains it: it has every call that returned,
with its result, and of the other calls those that took effect; it keeps the order of calls
that do not overlap; and the sequential object behaves so.
-/
structure Linearization (step : S → Op → Res → S → Prop) (start : S)
    (history : List (Record Op Res)) (order : List (Effect Op Res)) : Prop where
  distinct : (order.map Effect.id).Nodup
  called : ∀ effect ∈ order, .call effect.id effect.op ∈ history
  complete : ∀ id res, .ret id res ∈ history → ∃ op, ⟨id, op, res⟩ ∈ order
  realTime
    : ∀ earlier ∈ order, ∀ later ∈ order, ∀ ending, ending.ends = some earlier.id →
        [ending, .call later.id later.op].Sublist history → [earlier, later].Sublist order
  behaves : ∃ final, Behaves step start order final

/-- A recorded history whose effects are a run of the sequential object is linearizable, by
the order of its effects.
-/
theorem Recorded.linearization {step : S → Op → Res → S → Prop} {start final : S}
    {history : List (Record Op Res)} (recorded : Recorded history)
    (run : Behaves step start (effects history) final)
    : Linearization step start history (effects history) where
  distinct := recorded.distinct
  called := fun _ member => recorded.called_of_lin (mem_effects.mp member)
  complete := fun _ _ member => by
    obtain ⟨op, took⟩ := recorded.lin_of_ret member
    exact ⟨op, mem_effects.mpr took⟩
  realTime := fun _ first _ second _ ends before =>
    recorded.realTime first second ends before
  behaves := ⟨final, run⟩

-----------------------------------------------------------------------------------------
-- Logs
-----------------------------------------------------------------------------------------

/-- What a step of a thread tells about its calls. A call takes effect when it is answered. -/
inductive Label (Op Res : Type*)
  | silent
  | called (op : Op)
  | answered (res : Res)
  | abandoned

/-- The history of a run, with the calls that its threads execute. -/
structure CallLog (T Op Res : Type*) where
  calls : Nat
  current : T → Option (Nat × Op)
  history : List (Record Op Res)

namespace CallLog

variable {T : Type*}

def empty : CallLog T Op Res := ⟨0, fun _ => none, []⟩

variable [DecidableEq T]

/-- A thread ends its call with these events. -/
def finish (log : CallLog T Op Res) (t : T) (events : Nat → Op → List (Record Op Res))
    : CallLog T Op Res :=
  match log.current t with
  | some (id, op) =>
      {
        log with
        current := Function.update log.current t none
        history := log.history ++ events id op
      }
  | none => log

/-- A step is added to the history. -/
def record (log : CallLog T Op Res) (t : T) : Label Op Res → CallLog T Op Res
  | .silent => log
  | .called op =>
      {
        calls := log.calls + 1
        current := Function.update log.current t (some (log.calls, op))
        history := log.history ++ [.call log.calls op]
      }
  | .answered res => log.finish t fun id op => [.lin id op res, .ret id res]
  | .abandoned => log.finish t fun id _ => [.unwound id]

/-- The calls of the threads are running, and they are different ones. -/
structure Valid (log : CallLog T Op Res) : Prop where
  recorded : Recorded log.history
  numbered : ∀ id op, .call id op ∈ log.history → id < log.calls
  called : ∀ t id op, log.current t = some (id, op) → .call id op ∈ log.history
  pending
    : ∀ t id op, log.current t = some (id, op) →
        (∀ other res, .lin id other res ∉ log.history) ∧ ¬ Ended log.history id
  apart
    : ∀ t u id op other, log.current t = some (id, op) → log.current u = some (id, other) → u = t

variable {log : CallLog T Op Res} {t u : T} {id : Nat} {op : Op} {res : Res}

omit [DecidableEq T] in
theorem Valid.empty : (empty : CallLog T Op Res).Valid where
  recorded := .nil
  numbered := nofun
  called := nofun
  pending := nofun
  apart := nofun

theorem record_answered (running : log.current t = some (id, op)) (res : Res)
    : log.record t (.answered res)
      = {
          log with
          current := Function.update log.current t none
          history := log.history ++ [.lin id op res] ++ [.ret id res]
        } := by
  simp only [record, finish, running, List.append_assoc, List.cons_append, List.nil_append]

theorem record_abandoned (running : log.current t = some (id, op))
    : log.record t (.abandoned : Label Op Res)
      = {
          log with
          current := Function.update log.current t none
          history := log.history ++ [.unwound id]
        } := by
  simp only [record, finish, running]

/-- The calls of the other threads go on while one call ends. -/
theorem Valid.finished (valid : log.Valid) (running : log.current t = some (id, op))
    {events : List (Record Op Res)} (recorded : Recorded (log.history ++ events))
    (calls : ∀ other op, .call other op ∉ events)
    (lins : ∀ other op res, .lin other op res ∈ events → other = id)
    (ends : ∀ event ∈ events, ∀ other, event.ends = some other → other = id)
    : CallLog.Valid {
        log with
        current := Function.update log.current t none
        history := log.history ++ events
      } := by
  have before {u : T} {number : Nat} {other : Op}
      (current : Function.update log.current t none u = some (number, other)) :
      u ≠ t ∧ log.current u = some (number, other) := by
    by_cases self : u = t
    · subst u
      rw [Function.update_self] at current
      cases current
    · rw [Function.update_of_ne self] at current
      exact ⟨self, current⟩
  refine ⟨recorded, fun number other member => ?_, fun u number other current => ?_,
    fun u number other current => ?_, fun u v number op op' current current' => ?_⟩
  · exact valid.numbered number other ((List.mem_append.mp member).resolve_right (calls _ _))
  · exact List.mem_append_left _ (valid.called u number other (before current).2)
  · obtain ⟨apart, current⟩ := before current
    obtain ⟨first, unended⟩ := valid.pending u number other current
    have different : number ≠ id := by
      rintro rfl
      exact apart (valid.apart t u number op other running current)
    refine ⟨fun op res member => ?_, ?_⟩
    · exact (List.mem_append.mp member).elim (first op res) fun now =>
        different (lins number op res now)
    · rintro ⟨event, member, ended⟩
      exact (List.mem_append.mp member).elim (fun earlier => unended ⟨event, earlier, ended⟩)
        fun now => different (ends event now number ended)
  · exact valid.apart u v number op op' (before current).2 (before current').2

/-- Every step keeps the log valid, by cases on what it tells. -/
theorem Valid.record (valid : log.Valid) (t : T) (label : Label Op Res)
    : (log.record t label).Valid := by
  cases label with
  | silent => exact valid
  | called op =>
      have fresh (other : Op) : .call log.calls other ∉ log.history := fun member =>
        Nat.lt_irrefl _ (valid.numbered _ _ member)
      have earlier {u : T} {number : Nat} {other : Op} (apart : u ≠ t)
          (current : Function.update log.current t (some (log.calls, op)) u
            = some (number, other)) : log.current u = some (number, other) := by
        rwa [Function.update_of_ne apart] at current
      have mine {number : Nat} {other : Op}
          (current : Function.update log.current t (some (log.calls, op)) t
            = some (number, other)) : log.calls = number ∧ op = other := by
        rw [Function.update_self] at current
        cases current
        exact ⟨rfl, rfl⟩
      have older {u : T} {number : Nat} {other : Op}
          (current : log.current u = some (number, other)) : number < log.calls :=
        valid.numbered _ _ (valid.called u _ _ current)
      refine ⟨.call _ op valid.recorded fresh, fun number other member => ?_,
        fun u number other current => ?_, fun u number other current => ?_,
        fun u v number op₁ op₂ current current' => ?_⟩
      · rcases List.mem_append.mp member with before | now
        · exact Nat.lt_succ_of_lt (valid.numbered number other before)
        · cases List.mem_singleton.mp now
          exact Nat.lt_succ_self _
      · by_cases self : u = t
        · subst u
          obtain ⟨rfl, rfl⟩ := mine current
          exact List.mem_append_right _ List.mem_cons_self
        · exact List.mem_append_left _ (valid.called u _ _ (earlier self current))
      · have unended (ended : Ended (log.history ++ [.call log.calls op]) number) :
            Ended log.history number := (ended_concat.mp ended).resolve_right nofun
        have took {other : Op} {res : Res}
            (member : .lin number other res ∈ log.history ++ [.call log.calls op]) :
            .lin number other res ∈ log.history :=
          (List.mem_append.mp member).resolve_right (by simp)
        by_cases self : u = t
        · subst u
          obtain ⟨rfl, rfl⟩ := mine current
          refine ⟨fun other res member => ?_, fun ended => ?_⟩
          · exact fresh other (valid.recorded.called_of_lin (took member))
          · obtain ⟨other, called⟩ := valid.recorded.called_of_ended (unended ended)
            exact fresh other called
        · obtain ⟨first, running⟩ := valid.pending u _ _ (earlier self current)
          exact ⟨fun other res member => first other res (took member),
            fun ended => running (unended ended)⟩
      · by_cases self : u = t
        · by_cases self' : v = t
          · rw [self, self']
          · subst u
            obtain ⟨rfl, _⟩ := mine current
            exact absurd (older (earlier self' current')) (Nat.lt_irrefl _)
        · by_cases self' : v = t
          · subst v
            obtain ⟨rfl, _⟩ := mine current'
            exact absurd (older (earlier self current)) (Nat.lt_irrefl _)
          · exact valid.apart u v _ _ _ (earlier self current) (earlier self' current')
  | answered res =>
      cases running : log.current t with
      | none =>
          simp only [CallLog.record, finish, running]
          exact valid
      | some call =>
          obtain ⟨id, op⟩ := call
          obtain ⟨first, unended⟩ := valid.pending t id op running
          have took := valid.recorded.lin id op res (valid.called t id op running) first unended
          have still : ¬ Ended (log.history ++ [.lin id op res]) id := fun ended =>
            unended ((ended_concat.mp ended).resolve_right nofun)
          have answered := took.ret id op res
            (List.mem_append_right _ List.mem_cons_self) still
          rw [record_answered running, List.append_assoc]
          rw [List.append_assoc] at answered
          refine valid.finished running answered (by simp) ?_ ?_
          · intro other op' res' member
            simp only [List.cons_append, List.nil_append, List.mem_cons, List.not_mem_nil,
              or_false, reduceCtorEq, Record.lin.injEq] at member
            exact member.1
          · intro event member other ends
            simp only [List.cons_append, List.nil_append, List.mem_cons, List.not_mem_nil,
              or_false] at member
            rcases member with rfl | rfl
            · cases ends
            · cases ends
              rfl
  | abandoned =>
      cases running : log.current t with
      | none =>
          simp only [CallLog.record, finish, running]
          exact valid
      | some call =>
          obtain ⟨id, op⟩ := call
          obtain ⟨_, unended⟩ := valid.pending t id op running
          rw [record_abandoned running]
          refine valid.finished running
            (valid.recorded.unwound id op (valid.called t id op running) unended) (by simp)
            (by simp) ?_
          intro event member other ends
          cases List.mem_singleton.mp member
          cases ends
          rfl

end CallLog

end Library
