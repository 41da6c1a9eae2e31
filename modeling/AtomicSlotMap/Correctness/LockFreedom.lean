import AtomicSlotMap.Correctness.ChunkWaits
import AtomicSlotMap.Correctness.Work

/-! The map is lock-free but for the spin on a chunk that is still to be allocated. All accesses of
a run are paid for by the calls that it starts, so a run without end in which activities do not
just spin starts calls and ends calls again and again.
-/

namespace AtomicSlotMap

open Filter Library

variable {T K V E : Type} [Key K]

/-- Whether an activity is between two calls, or would be once its waits are over. -/
def Pc.resting : Pc K V E → Bool
  | .waitForChunk _ next | .assertRefCount _ next | .assertVersion _ next => next.resting
  | .idle | .iterating _ => true
  | _ => false

/-- Whether an activity is about to leave its call, by a return or by a panic. -/
def Pc.leaving : Pc K V E → Bool
  | .ret _ | .unwinding => true
  | _ => false

/-- Whether a choice makes a call. -/
def Choice.isCall : Choice K V E → Bool
  | .call _ => true
  | _ => false

/-- What each activity pays for the others: an update makes each of them repeat three accesses, and
a new index is one that each of them may still visit.
-/
def Rates.shared (T : Type) [Fintype T] : Rates where
  update := Fintype.card T * 3
  push := Fintype.card T * (3 * (Fintype.card T * 3) + 17)

namespace Sys

variable [DecidableEq T] [Fintype T] {dbg : Bool} {s s' : Sys T K V E} {t : T}
  {choice : Choice K V E} {rates : Rates}

/-- A step as a function of who takes it with which choice. -/
def next (dbg : Bool) (s : Sys T K V E) (label : T × Choice K V E) : Option (Sys T K V E) :=
  step dbg s label.1 label.2

/-- The accesses of one activity. -/
def ownWork (t : T) (s : Sys T K V E) (label : T × Choice K V E) : Nat :=
  if label.1 = t then s.work label else 0

/-- What one activity is charged if it pays for its own accesses only: its fees, and what the
accesses of the others hinder it.
-/
def ownFee (t : T) (s : Sys T K V E) (label : T × Choice K V E) : Nat :=
  if label.1 = t then s.fee ⟨0, 0⟩ label else (s.pc label.1).hindrance ⟨0, 0⟩

/-- What is left on all bills. -/
def bills (s : Sys T K V E) : Nat := ∑ t, s.bill (Rates.shared T) t

/-- A step makes the bills of the others grow by at most its hindrance, and it is charged for that
as often as there are shares to pay.
-/
theorem exists_growth {shares : Nat} (updates : shares * 3 ≤ rates.update)
    (pushes : shares * rates.visit ≤ rates.push) (found : step dbg s t choice = some s')
    : ∃ growth ≤ (s.pc t).hindrance rates,
        (∀ other, other ≠ t → s'.bill rates other ≤ s.bill rates other + growth)
        ∧ s.work (t, choice) + s'.bill rates t + shares * growth
          ≤ s.fee rates (t, choice) + s.bill rates t := by
  have still (other : T) (apart : other ≠ t) := (step_moves found).others other apart
  cases (step_pays found : Pays rates s t choice s') with
  | quietly same paid =>
      refine ⟨0, Nat.zero_le _, fun other apart => ?_, paid⟩
      rw [bill, bill, still other apart, same.stale, same.len]
      exact Nat.le_add_right _ _
  | updating hinders len paid =>
      refine ⟨3, Nat.le_of_eq hinders.symm, fun other apart => ?_, by omega⟩
      rw [bill, bill, still other apart, len]
      split <;> split <;> omega
  | pushing about freeHead counts grown paid =>
      refine ⟨rates.visit, Nat.le_of_eq (about ▸ rfl), fun other apart => ?_, by omega⟩
      have more : (s.pc other).cost rates s'.len ≤ _ := Pc.cost_grow grown
      rw [bill, bill, still other apart, Pc.stale_congr freeHead counts]
      omega

/-- Every access is paid for by the fees and by what all bills give up: who hinders the others has
been charged for each of them.
-/
theorem bills_amortize
    : Amortizes (next dbg) work (fee (Rates.shared T)) (bills : Sys T K V E → Nat) := by
  rintro s ⟨t, choice⟩ s' (found : step dbg s t choice = some s')
  have updates : Fintype.card T * 3 ≤ (Rates.shared T).update := Nat.le_refl _
  have pushes : Fintype.card T * (Rates.shared T).visit ≤ (Rates.shared T).push := Nat.le_refl _
  obtain ⟨growth, _, others, paid⟩ := exists_growth updates pushes found
  have shared := sum_le_of_others others
  simp only [bills]
  omega

/-- An activity pays for its own accesses, but for what the others hinder it. -/
theorem bill_amortizes (t : T)
    : Amortizes (next dbg) (ownWork t) (ownFee t) (bill ⟨0, 0⟩ · t : Sys T K V E → Nat) := by
  rintro s ⟨u, choice⟩ s' (found : step dbg s u choice = some s')
  have none : 0 * 3 ≤ Rates.update ⟨0, 0⟩ := Nat.le_refl _
  have never : 0 * Rates.visit ⟨0, 0⟩ ≤ Rates.push ⟨0, 0⟩ := Nat.le_of_eq (Nat.zero_mul _)
  obtain ⟨growth, bounded, others, paid⟩ := exists_growth none never found
  simp only [ownWork, ownFee]
  by_cases self : u = t
  · subst self
    rw [if_pos rfl, if_pos rfl]
    omega
  · have more := others t (Ne.symm self)
    rw [if_neg self, if_neg self]
    omega

-----------------------------------------------------------------------------------------
-- Calls and their ends
-----------------------------------------------------------------------------------------

/-- Whether an activity is between two calls, as a number. -/
def rests (s : Sys T K V E) (t : T) : Nat := if (s.pc t).resting then 1 else 0

/-- One for each call that a step makes. -/
def callsMade (_ : Sys T K V E) (label : T × Choice K V E) : Nat := if label.2.isCall then 1 else 0

/-- One for each call that a step leaves. -/
def callsLeft (s : Sys T K V E) (label : T × Choice K V E) : Nat :=
  if (s.pc label.1).leaving then 1 else 0

omit [Key K] in
theorem resting_exclusivelyOwned (idx : Nat) (next : Pc K V E)
    : (Pc.exclusivelyOwned dbg idx next).resting = next.resting := by
  cases dbg <;> rfl

omit [Key K] in
theorem resting_missed (getter : Getter) : (getter.missed : Pc K V E).resting = false := by
  cases getter <;> rfl

omit [Key K] in
theorem resting_resume (after : AfterPush K E) : (after.resume : Pc K V E).resting = false := by
  cases after with
  | missed getter => exact resting_missed getter
  | _ => rfl

omit [Key K] in
theorem resting_ensured (after : AfterEnsure) : (after.resume : Pc K V E).resting = false := by
  cases after with
  | pushed idx => rfl
  | reserving chunk maxChunk =>
      simp only [AfterEnsure.resume]
      split <;> rfl

omit [Key K] in
theorem resting_popLoop (head updates : Nat)
    : (Pc.popLoop head updates : Pc K V E).resting = false := by
  rw [Pc.popLoop]
  split <;> rfl

omit [DecidableEq T] [Fintype T] in
/-- A move of a program counter alone makes nobody rest, by cases on the move. -/
theorem Goes.resting {pc pc' : Pc K V E} (goes : pc.Goes dbg s pc') (rests : pc'.resting = true)
    : pc.resting = true := by
  cases goes with
  | arrived | unreferenced | unoccupied => exact rests
  | iterate | endIterate => rfl
  | popLoad | popAgain =>
      rw [resting_popLoop] at rests
      cases rests
  | closureOk idx version value =>
      rw [Pc.resting, resting_exclusivelyOwned] at rests
      cases rests
  | ensurePresent chunk after =>
      rw [resting_ensured] at rests
      cases rests
  | _ => cases rests

omit [DecidableEq T] [Fintype T] in
/-- Only the end of a call leads back to where calls are made, by cases on where a step leads. -/
theorem Leads.resting {pc : Pc K V E} (leads : s.Leads dbg t pc) (rests : pc.resting = true)
    : (s.pc t).resting = true ∨ (s.pc t).leaving = true := by
  have busy {pc' : Pc K V E} (other : pc'.resting = false) (rests : pc'.resting = true) :
      (s.pc t).resting = true ∨ (s.pc t).leaving = true := by
    rw [other] at rests
    cases rests
  cases leads with
  | stay => exact Or.inl rests
  | go pc goes => exact Or.inl (Goes.resting goes rests)
  | answered res pc answers =>
      refine busy ?_ rests
      generalize s.pc t = before at answers
      cases answers with
      | closureErr idx => exact resting_exclusivelyOwned idx _
      | _ => rfl
  | popped | dropped => exact busy (resting_exclusivelyOwned _ _) rests
  | ensured after => exact busy (resting_ensured after) rests
  | recycled idx old after => exact busy (resting_resume after) rests
  | released idx needsDrop otherwise decrements =>
      refine busy ?_ rests
      generalize s.pc t = before at decrements
      cases decrements <;> rfl
  | gaveUp idx needsDrop otherwise decrements =>
      refine busy ?_ rests
      generalize s.pc t = before at decrements
      cases decrements with
      | acquire key getter => exact resting_missed getter
      | _ => rfl
  | began op pc calls starts =>
      refine busy ?_ rests
      cases starts <;> rfl
  | returned res about | unwound about =>
      rw [about]
      exact Or.inr rfl
  | _ => exact busy rfl rests

omit [Key K] in
/-- An activity that makes a call is at rest. -/
theorem resting_of_calls {pc : Pc K V E} {op : Op K} (calls : pc.Calls op) : pc.resting = true := by
  rcases calls with ⟨rfl, _⟩ | ⟨_, rfl, _⟩ <;> rfl

/-- A call that has been made is not over yet, by cases on the call. -/
theorem resting_of_call {op : Op K} (found : s.call t op = some s') : (s'.pc t).resting = false := by
  cases op with
  | dropGuard id | forgetGuard id =>
      rw [Sys.call] at found
      split at found
      · cases found
      · obtain ⟨⟨guard, others⟩, _, rfl⟩ := Option.map_eq_some_iff.mp found
        rw [pc_goto_self]
        rfl
  | cloneGuard id | derefGuard id =>
      obtain ⟨guard, _, rfl⟩ := Option.map_eq_some_iff.mp found
      rw [pc_goto_self]
      rfl
  | _ =>
      cases found
      rw [pc_goto_self]
      rfl

/-- A call that is made has been left before the activity makes the next one. -/
theorem rests_amortizes
    : Amortizes (next dbg) callsMade callsLeft (fun s : Sys T K V E => ∑ t, s.rests t) := by
  rintro s ⟨t, choice⟩ s' (found : step dbg s t choice = some s')
  have others (other : T) (apart : other ≠ t) : s'.rests other ≤ s.rests other + 0 := by
    rw [rests, rests, (step_moves found).others other apart]
    exact Nat.le_refl _
  have shared := sum_le_of_others others
  have mine : s'.rests t + callsMade s (t, choice) ≤ s.rests t + callsLeft s (t, choice) := by
    cases called : choice.isCall with
    | true =>
        cases choice with
        | call op =>
            obtain ⟨calls, called⟩ := call_of_step found
            simp only [rests, resting_of_calls calls, resting_of_call called]
            exact Nat.le_add_right _ _
        | _ => cases called
    | false =>
        simp only [rests, callsMade, callsLeft, called]
        cases after : (s'.pc t).resting with
        | false => exact Nat.zero_le _
        | true =>
            rcases (step_moves found).leads.resting after with before | leaving
            · rw [before]
              exact Nat.le_add_right _ _
            · rw [leaving]
              exact Nat.le_add_left _ _
  change callsMade s (t, choice) + ∑ u, s'.rests u ≤ callsLeft s (t, choice) + ∑ u, s.rests u
  omega

-----------------------------------------------------------------------------------------
-- Runs without end
-----------------------------------------------------------------------------------------

variable {states : Nat → Sys T K V E} {labels : Nat → T × Choice K V E}

omit [Key K] [DecidableEq T] [Fintype T] in
/-- Who is inside `push_zeroed` makes an access when its turn comes. -/
theorem work_of_pushing {idx : Nat} (pushing : (s.pc t).Pushing idx)
    (firm : choice.isSpurious = false)
    : s.work (t, choice) = 1 := by
  cases about : s.pc t with
  | ensureLoad | ensureAlloc | ensureCas =>
      simp only [work, spins, about, firm, Pc.paused, Bool.or_self, Bool.false_eq_true, if_false]
  | _ =>
      rw [about] at pushing
      exact pushing.elim

/-- Who spins waits for an activity that is inside `push_zeroed`. -/
theorem exists_pushing (run : Relation.ReflTransGen (GrantedStep dbg) (.withKey T K V E) s)
    (spins : s.spins t = true)
    : ∃ u idx, u ≠ t ∧ (s.pc u).Pushing idx := by
  obtain ⟨claimed, _⟩ := Claimed.withKey.of_granted .withKey run
  cases about : s.pc t with
  | waitForChunk idx next =>
      simp only [Sys.spins, about] at spins
      have missing : ¬ s.present idx :=
        Option.not_isSome_iff_eq_none.mpr (Option.isNone_iff_eq_none.mp spins)
      obtain ⟨_, _, u, pushing⟩ := (reaching_of_run run).waits claimed about missing
      refine ⟨u, idx, ?_, pushing⟩
      rintro rfl
      rw [about] at pushing
      exact pushing
  | _ =>
      simp only [Sys.spins, about] at spins
      cases spins

/-- An activity stands still until its turn comes, by induction on the steps until then. -/
theorem exists_turn (follows : ∀ length, Follows (next dbg) states labels length) {i j : Nat}
    (later : i ≤ j) (own : (labels j).1 = t)
    : ∃ k ≥ i, (labels k).1 = t ∧ (states k).pc t = (states i).pc t := by
  obtain ⟨distance, rfl⟩ := Nat.exists_eq_add_of_le later
  clear later
  induction distance generalizing i with
  | zero => exact ⟨i, Nat.le_refl i, own, Eq.refl _⟩
  | succ distance ih =>
      by_cases now : (labels i).1 = t
      · exact ⟨i, Nat.le_refl i, now, Eq.refl _⟩
      · have first := step_moves (follows (i + 1) i (Nat.lt_succ_self i))
        rw [show i + (distance + 1) = i + 1 + distance by omega] at own
        obtain ⟨k, later, turn, same⟩ := ih own
        exact ⟨k, Nat.le_of_succ_le later, turn, same.trans (first.others t (Ne.symm now))⟩

/-- The states of a run in which allocations are granted, by induction on the number of steps. -/
theorem granted_of_follows (start : states 0 = .withKey T K V E)
    (follows : ∀ length, Follows (next dbg) states labels length)
    (granted : ∀ i, (states i).Grants (labels i).1 (labels i).2) (i : Nat)
    : Relation.ReflTransGen (GrantedStep dbg) (.withKey T K V E) (states i) := by
  induction i with
  | zero => exact start ▸ .refl
  | succ i ih =>
      exact ih.tail ⟨_, _, granted i, follows (i + 1) i (Nat.lt_succ_self i)⟩

end Sys

open Sys in
/-- Lock-freedom. In every run without end, if activities that are about to allocate a chunk are not
stopped forever, weak exchanges fail spuriously only finitely often, allocations are granted and
calls take steps again and again, then calls are left again and again.
-/
theorem calls_keep_ending [DecidableEq T] [Fintype T] {dbg : Bool} {states : Nat → Sys T K V E}
    {labels : Nat → T × Choice K V E} (start : states 0 = .withKey T K V E)
    (follows : ∀ length, Follows (next dbg) states labels length)
    (granted : ∀ i, (states i).Grants (labels i).1 (labels i).2)
    (firm : ∀ᶠ i in atTop, (labels i).2.isSpurious = false)
    (fair : ∀ i t idx, ((states i).pc t).Pushing idx → ∃ j ≥ i, (labels j).1 = t)
    (busy : ∃ᶠ i in atTop, ((states i).pc (labels i).1).paused = false)
    : ∃ᶠ i in atTop, ((states i).pc (labels i).1).leaving = true := by
  have works : ∃ᶠ i in atTop, 0 < (states i).work (labels i) := by
    rw [frequently_atTop]
    intro start'
    obtain ⟨settled, firm⟩ := eventually_atTop.mp firm
    obtain ⟨i, later, running⟩ := frequently_atTop.mp busy (max start' settled)
    have firm' := firm i (Nat.le_trans (Nat.le_max_right _ _) later)
    have later' := Nat.le_trans (Nat.le_max_left _ _) later
    cases spins : (states i).spins (labels i).1 with
    | false =>
        refine ⟨i, later', ?_⟩
        rw [work, running, spins, firm']
        exact Nat.one_pos
    | true =>
        -- the activity that it waits for makes an access
        obtain ⟨t, idx, _, pushing⟩ := exists_pushing (granted_of_follows start follows granted i) spins
        obtain ⟨j, after, own⟩ := fair i t idx pushing
        obtain ⟨k, after', turn, same⟩ := exists_turn follows after own
        refine ⟨k, Nat.le_trans later' after', ?_⟩
        have firm := firm k (Nat.le_trans (Nat.le_trans (Nat.le_max_right _ _) later) after')
        rw [← same] at pushing
        rw [show labels k = (t, (labels k).2) from Prod.ext turn (Eq.refl _),
          work_of_pushing pushing firm]
        exact Nat.one_pos
  have calls : ∃ᶠ i in atTop, 0 < (states i).callsMade (labels i) := by
    have paid := bills_amortize.frequently follows works
    refine (paid.and_eventually firm).mono fun i both => ?_
    obtain ⟨fee, firm⟩ := both
    rw [Sys.fee] at fee
    rw [callsMade]
    cases choice : (labels i).2 with
    | call op => exact Nat.one_pos
    | spurious =>
        rw [choice] at firm
        cases firm
    | _ =>
        rw [choice] at fee
        cases fee
  refine (rests_amortizes.frequently follows calls).mono fun i left => ?_
  by_contra staying
  rw [callsLeft, if_neg staying] at left
  cases left

/-- Two activities take turns at looking up a key that is absent. -/
def lookUps (i : Nat) : Bool × Choice UInt64 Nat Empty :=
  (i / 3 % 2 == 1, if i % 3 = 0 then .call (.containsKey 0) else .go)

/-- The states that these turns lead to. -/
def lookUpStates : Nat → Sys Bool UInt64 Nat Empty
  | 0 => .withKey Bool UInt64 Nat Empty
  | i + 1 => (Sys.next false (lookUpStates i) (lookUps i)).getD (lookUpStates i)

/-- The map remains empty, and this is where the activities stand before a turn. -/
structure LookingUp (i : Nat) (s : Sys Bool UInt64 Nat Empty) : Prop where
  len : s.len = 0
  mine
    : s.pc (lookUps i).1
      = if i % 3 = 0 then .idle else if i % 3 = 1 then .containsLen 0 else .ret (.contains false)
  other : s.pc (!(lookUps i).1) = .idle

/-- The next turn can be taken, by cases on what is left of the lookup. -/
theorem LookingUp.turn {i : Nat} {s : Sys Bool UInt64 Nat Empty} (looking : LookingUp i s)
    : ∃ s', Sys.next false s (lookUps i) = some s' ∧ LookingUp (i + 1) s' := by
  obtain ⟨len, mine, other⟩ := looking
  rcases turn : lookUps i with ⟨t, choice⟩
  have actor : (lookUps i).1 = t := by rw [turn]
  have chosen : (lookUps i).2 = choice := by rw [turn]
  rw [actor] at mine other
  have apart : (!t) ≠ t := by cases t <;> decide
  simp only [lookUps] at actor chosen
  have phases : i % 3 = 0 ∨ i % 3 = 1 ∨ i % 3 = 2 := by omega
  rcases phases with phase | phase | phase
  · have same : (lookUps (i + 1)).1 = t := by
      rw [← actor, lookUps, show (i + 1) / 3 = i / 3 by omega]
    rw [if_pos phase] at mine chosen
    subst chosen
    refine ⟨(s.begin t (.containsKey 0)).goto t (.containsLen 0), ?_, len, ?_, ?_⟩
    · simp only [Sys.next, step, mine]
      rfl
    · rw [same, Sys.pc_goto_self, if_neg (by omega), if_pos (by omega)]
    · rw [same, Sys.pc_goto_of_ne _ _ apart]
      exact other
  · have same : (lookUps (i + 1)).1 = t := by
      rw [← actor, lookUps, show (i + 1) / 3 = i / 3 by omega]
    rw [if_neg (by omega)] at mine chosen
    rw [if_pos phase] at mine
    subst chosen
    refine ⟨(s.answer t (.contains false)).goto t (.ret (.contains false)), ?_, ?_, ?_, ?_⟩
    · have beyond : s.len ≤ KeyData.idx (0 : UInt64) := len ▸ Nat.zero_le _
      simp only [Sys.next, step, mine, if_pos beyond]
      rfl
    · rw [Sys.answer_eq]
      exact len
    · rw [same, Sys.pc_goto_self, if_neg (by omega), if_neg (by omega)]
    · rw [same, Sys.pc_goto_of_ne _ _ apart, Sys.pc_answer]
      exact other
  · have same : (lookUps (i + 1)).1 = !t := by
      rw [← actor, lookUps, show (i + 1) / 3 = i / 3 + 1 by omega]
      have parity : i / 3 % 2 = 0 ∨ i / 3 % 2 = 1 := by omega
      rcases parity with even | odd
      · rw [even, show (i / 3 + 1) % 2 = 1 by omega]
        rfl
      · rw [odd, show (i / 3 + 1) % 2 = 0 by omega]
        rfl
    rw [if_neg (by omega)] at mine chosen
    rw [if_neg (by omega)] at mine
    subst chosen
    refine ⟨(s.finish t (.ret · (.contains false))).goto t .idle, ?_, ?_, ?_, ?_⟩
    · simp only [Sys.next, step, mine]
      rfl
    · rw [Sys.finish_eq]
      exact len
    · rw [same, Sys.pc_goto_of_ne _ _ apart, Sys.pc_finish, if_pos (by omega)]
      exact other
    · rw [same, Bool.not_not, Sys.pc_goto_self]

/-- Every state is followed by the next one, by induction on the turns. -/
theorem lookUpStates_follow (i : Nat)
    : LookingUp i (lookUpStates i)
      ∧ Sys.next false (lookUpStates i) (lookUps i) = some (lookUpStates (i + 1)) := by
  have follow {i : Nat} (looking : LookingUp i (lookUpStates i)) :
      Sys.next false (lookUpStates i) (lookUps i) = some (lookUpStates (i + 1))
      ∧ LookingUp (i + 1) (lookUpStates (i + 1)) := by
    obtain ⟨s', found, looking'⟩ := looking.turn
    rw [lookUpStates, found]
    exact ⟨rfl, looking'⟩
  induction i with
  | zero => exact ⟨⟨rfl, rfl, rfl⟩, (follow ⟨rfl, rfl, rfl⟩).1⟩
  | succ i ih =>
      have looking := (follow ih.1).2
      exact ⟨looking, (follow looking).1⟩

open Sys in
/-- Lookups that never stop are answered again and again. -/
theorem calls_keep_ending_lookUps
    : ∃ᶠ i in atTop, ((lookUpStates i).pc (lookUps i).1).leaving = true := by
  have looking (i : Nat) := (lookUpStates_follow i).1
  refine calls_keep_ending rfl (fun _ i _ => (lookUpStates_follow i).2) (fun i => ?_) ?_
    (fun i t idx pushing => ?_) ?_
  · refine grants_of_supplies _ _ ?_
    simp only [lookUps]
    split <;> rfl
  · refine Eventually.of_forall fun i => ?_
    simp only [lookUps]
    split <;> rfl
  · have mine := (looking i).mine
    have other := (looking i).other
    rcases Bool.eq_or_eq_not t (lookUps i).1 with rfl | rfl
    · rw [mine] at pushing
      split at pushing
      · exact pushing.elim
      · split at pushing <;> exact pushing.elim
    · rw [other] at pushing
      exact pushing.elim
  · refine frequently_atTop.mpr fun start => ⟨3 * start + 1, by omega, ?_⟩
    rw [(looking _).mine, if_neg (by omega), if_pos (by omega)]
    rfl

-----------------------------------------------------------------------------------------
-- Bounds for finite runs
-----------------------------------------------------------------------------------------

open Sys in
/-- In every run from the empty map the accesses are at most as many as the fees of its calls and
spurious failures allow, however the activities hinder each other.
-/
theorem work_le_fees [DecidableEq T] [Fintype T] {dbg : Bool} {states : Nat → Sys T K V E}
    {labels : Nat → T × Choice K V E} {length : Nat} (start : states 0 = .withKey T K V E)
    (follows : Follows (next dbg) states labels length)
    : total work states labels length ≤ total (fee (Rates.shared T)) states labels length := by
  have paid := bills_amortize.total_le follows
  have nothing : bills (states 0) = 0 := by
    rw [start]
    exact Finset.sum_eq_zero fun _ _ => rfl
  omega

open Sys in
/-- The lookups of both activities are paid for. -/
theorem work_le_fees_lookUps
    : total work lookUpStates lookUps 6 ≤ total (fee (Rates.shared Bool)) lookUpStates lookUps 6 :=
  work_le_fees rfl fun i _ => (lookUpStates_follow i).2

namespace Sys

variable [DecidableEq T] [Fintype T] {dbg : Bool} {s s' : Sys T K V E} {t : T}

/-- Allocations have been granted, and no other activity is inside `push_zeroed`. -/
structure Unawaited (dbg : Bool) (s : Sys T K V E) (t : T) : Prop where
  granted : Relation.ReflTransGen (GrantedStep dbg) (.withKey T K V E) s
  quiet : ∀ u, u ≠ t → ∀ idx, ¬ (s.pc u).Pushing idx

/-- Every access of an activity that waits for nobody brings it nearer to its next pause. -/
theorem Unawaited.turn (unawaited : Unawaited dbg s t) (turn : GoTurn dbg t s s')
    : Unawaited dbg s' t ∧ 1 + s'.bill ⟨0, 0⟩ t ≤ s.bill ⟨0, 0⟩ t := by
  obtain ⟨running, found⟩ := turn
  refine ⟨⟨unawaited.granted.tail ⟨t, .go, grants_of_supplies s t rfl, found⟩, fun u apart => ?_⟩,
    ?_⟩
  · rw [(step_moves found).others u apart]
    exact unawaited.quiet u apart
  · have spins : s.spins t = false := by
      rw [← Bool.not_eq_true]
      intro spins
      obtain ⟨u, idx, other, pushing⟩ := exists_pushing unawaited.granted spins
      exact unawaited.quiet u other idx pushing
    have paid := bill_amortizes t s (t, .go) s' found
    simpa [ownWork, ownFee, work, running, spins, fee, Choice.isSpurious] using paid

/-- The turns of an activity that waits for nobody are at most as many as its bill, by induction on
their number.
-/
theorem Unawaited.turns {states : Nat → Sys T K V E} {length : Nat}
    (unawaited : Unawaited dbg (states 0) t)
    (turns : ∀ i < length, GoTurn dbg t (states i) (states (i + 1)))
    : Unawaited dbg (states length) t
      ∧ length + (states length).bill ⟨0, 0⟩ t ≤ (states 0).bill ⟨0, 0⟩ t := by
  induction length with
  | zero => exact ⟨unawaited, Nat.le_of_eq (Nat.zero_add _)⟩
  | succ length ih =>
      obtain ⟨before, paid⟩ := ih fun i less => turns i (Nat.lt_succ_of_lt less)
      obtain ⟨after, less⟩ := before.turn (turns length (Nat.lt_succ_self length))
      exact ⟨after, by omega⟩

/-- An activity that waits for nobody is this far from its next pause. -/
def Approaching (dbg : Bool) (t : T) (rank : Nat) (s : Sys T K V E) : Prop :=
  Unawaited dbg s t ∧ rank = if (s.pc t).paused then 0 else s.bill ⟨0, 0⟩ t

end Sys

open Sys in
/-- Obstruction-freedom. From every state of a run in which allocations are granted, an activity
that takes its turns alone comes to the end of its call or to its closure, wherever the others
stand, unless one of them is inside `push_zeroed`; and the number of its turns is bounded.
-/
theorem pauses_alone [DecidableEq T] [Fintype T] {dbg : Bool} {s : Sys T K V E} {t : T}
    (unawaited : Unawaited dbg s t)
    : Library.Eventually (GoTurn dbg t) (fun s' => (s'.pc t).paused = true) s
      ∧ ∀ (states : Nat → Sys T K V E) length,
          states 0 = s → (∀ i < length, GoTurn dbg t (states i) (states (i + 1))) →
            length ≤ (s.pc t).cost ⟨0, 0⟩ s.len + 3 := by
  refine ⟨?_, fun states length start turns => ?_⟩
  · have approaching : Approaching dbg t _ s := ⟨unawaited, rfl⟩
    refine Library.Eventually.of_rank (fun s' outline => ?_) (fun rank s' outline => ?_) approaching
    · obtain ⟨unawaited, rank⟩ := outline
      by_contra running
      rw [Bool.not_eq_true] at running
      obtain ⟨after, found⟩ := exists_go dbg running
      have less := (unawaited.turn ⟨running, found⟩).2
      rw [running] at rank
      simp only [Bool.false_eq_true, if_false] at rank
      omega
    · obtain ⟨unawaited, far⟩ := outline
      have running : (s'.pc t).paused = false := by
        rw [Bool.eq_false_iff]
        intro paused
        rw [paused] at far
        cases far
      obtain ⟨after, found⟩ := exists_go dbg running
      refine ⟨⟨after, running, found⟩, fun later turn => ⟨_, ?_, (unawaited.turn turn).1, rfl⟩⟩
      have less := (unawaited.turn turn).2
      rw [running] at far
      simp only [Bool.false_eq_true, if_false] at far
      split <;> omega
  · subst start
    have few := (unawaited.turns turns).2
    have most : (states 0).bill ⟨0, 0⟩ t ≤ ((states 0).pc t).cost ⟨0, 0⟩ (states 0).len + 3 := by
      rw [bill]
      split
      · exact Nat.le_refl _
      · exact Nat.le_add_right _ _
    omega

/-- One activity is stopped in the middle of a removal, and another one looks the key up. -/
def lookUpWhileRemoving : List (Bool × Choice UInt64 Nat Empty) :=
  Sys.turns false
    ([.call .tryInsertWithKey] ++ List.replicate 5 .go ++ [.closureOk 7] ++ List.replicate 6 .go
      ++ [.call (.remove ((1 : UInt64) <<< 32))] ++ List.replicate 4 .go)
  ++ Sys.turns true [.call (.get ((1 : UInt64) <<< 32) false), .go, .go, .go]

open Sys in
/-- The lookup is over after a few turns, although the removal has stopped. -/
theorem pauses_alone_lookUpWhileRemoving
    : ∃ s : Sys Bool UInt64 Nat Empty,
        s.pc false = .removeDec ((1 : UInt64) <<< 32)
        ∧ s.pc true = .acquireCas ((1 : UInt64) <<< 32) (.get false) 1
        ∧ Library.Eventually (GoTurn false true) (fun s' => (s'.pc true).paused = true) s := by
  have found : (Sys.run false (.withKey Bool UInt64 Nat Empty) lookUpWhileRemoving).map
      (fun s => (s.pc false, s.pc true))
      = some (.removeDec ((1 : UInt64) <<< 32),
          .acquireCas ((1 : UInt64) <<< 32) (.get false) 1) := by
    rfl
  obtain ⟨s, reached, after⟩ := Option.map_eq_some_iff.mp found
  simp only [Prod.mk.injEq] at after
  obtain ⟨removing, looking⟩ := after
  have run : Relation.ReflTransGen (SuppliedNext false) (.withKey Bool UInt64 Nat Empty) s :=
    suppliedNext_of_run reached (by decide +kernel)
  have granted : Relation.ReflTransGen (GrantedStep false) (.withKey Bool UInt64 Nat Empty) s :=
    Relation.ReflTransGen.mono (fun _ _ next => next.supplied.granted) _ _ run
  refine ⟨s, removing, looking, (pauses_alone ⟨granted, fun u apart idx pushing => ?_⟩).1⟩
  rw [Bool.eq_false_iff.mpr apart, removing] at pushing
  exact pushing

end AtomicSlotMap
