/-
  GloamCommands.Execution.History — the pruned cooldown map against a history that
  forgets nothing (`reserve_cooldown` in crates/gloam-commands/src/policy.rs).

  The calls are taken in the order they get the map's lock, with the instants they read
  before it. The code keeps one deadline for a user and drops every expired one with each
  success. The reference keeps each admitted call; it refuses a call while its user's
  newest admission is less than the cooldown old.
  - `Tracks`: what the map still knows of the history, at any later instant.
  - `reserve_tracks`: one call decides as the reference, and keeps the relation.
  - `pruned_is_history`: so does every call of a sequence with instants in lock order.
-/

import GloamCommands.Execution.Cooldown
import Mathlib.Data.List.Induction

namespace GloamCommands

/-! ## The calls and the reference -/

/-- A call of `reserve_cooldown` with a known user and a deadline the clock can name. -/
structure Reservation (duration : Duration) where
  context : Context
  now : Instant
  user : UserId
  invoked : invokingUser context.interaction = some user
  representable : now + duration ≤ Instant.last

abbrev History := List (UserId × Instant)

def History.latest (history : History) (user : UserId) : Option Instant :=
  (history.find? fun admission => admission.1 == user).map (·.2)

variable {duration : Duration}

namespace Reservation

def reserve (call : Reservation duration) (cooldowns : Cooldowns) : Except Error Unit × Cooldowns :=
  reserveCooldown call.context call.now duration cooldowns

def consult (call : Reservation duration) (history : History) : Except Error Unit × History :=
  match (history.latest call.user).filter (call.now < · + duration) with
  | some admitted => (.error (.commandOnCooldown (commandPath call.context) (admitted + duration - call.now)), history)
  | none => (.ok (), (call.user, call.now) :: history)

end Reservation

def keptAfter (calls : List (Reservation duration)) : Cooldowns :=
  calls.foldl (fun cooldowns call => (call.reserve cooldowns).2) fun _ => none

def historyAfter (calls : List (Reservation duration)) : History :=
  calls.foldl (fun history call => (call.consult history).2) []

def InOrder (calls : List (Reservation duration)) : Prop := calls.Pairwise fun earlier later => earlier.now ≤ later.now

theorem keptAfter_concat (calls : List (Reservation duration)) (call : Reservation duration) :
    keptAfter (calls ++ [call]) = (call.reserve (keptAfter calls)).2 := by
  simp [keptAfter, List.foldl_append]

theorem historyAfter_concat (calls : List (Reservation duration)) (call : Reservation duration) :
    historyAfter (calls ++ [call]) = (call.consult (historyAfter calls)).2 := by
  simp [historyAfter, List.foldl_append]

theorem latest_cons (history : History) (user other : UserId) (now : Instant) :
    History.latest ((user, now) :: history) other = if user = other then some now else history.latest other := by
  unfold History.latest
  rw [List.find?_cons]
  by_cases h : user = other
  · simp [h]
  · simp [beq_false_of_ne h, h]

/-! ## One call -/

/-- A call is refused exactly while its user's newest admission is not `duration` old. -/
theorem consult_iff (call : Reservation duration) (history : History) :
    (∃ admitted, history.latest call.user = some admitted ∧ call.now < admitted + duration ∧
      call.consult history =
        (.error (.commandOnCooldown (commandPath call.context) (admitted + duration - call.now)), history)) ∨
    ((∀ admitted, history.latest call.user = some admitted → admitted + duration ≤ call.now) ∧
      call.consult history = (.ok (), (call.user, call.now) :: history)) := by
  unfold Reservation.consult
  cases hf : (history.latest call.user).filter (call.now < · + duration) with
  | some admitted =>
    obtain ⟨hl, hlt⟩ := Option.filter_eq_some_iff.mp hf
    exact .inl ⟨admitted, hl, by simpa using hlt, rfl⟩
  | none =>
    refine .inr ⟨fun admitted hl => ?_, rfl⟩
    rw [hl] at hf
    simpa using hf

theorem reserve_eq (call : Reservation duration) (cooldowns : Cooldowns) :
    call.reserve cooldowns =
      lockedReserve (commandPath call.context) ⟨call.user, call.now, call.now + duration⟩ cooldowns := by
  unfold Reservation.reserve reserveCooldown sampleCooldown Instant.checkedAdd
  rw [call.invoked]
  simp only [call.representable, if_true]

/-- What the map knows of the history at `now`: nothing but newest admissions, and all of
    those not `duration` old. The deadlines it has forgotten have passed. -/
structure Tracks (duration : Duration) (now : Instant) (cooldowns : Cooldowns) (history : History) : Prop where
  past : ∀ {user : UserId} {admitted : Instant}, history.latest user = some admitted → admitted ≤ now
  kept : ∀ {user : UserId} {deadline : Instant}, cooldowns user = some deadline →
    ∃ admitted, history.latest user = some admitted ∧ deadline = admitted + duration
  running : ∀ {user : UserId} {admitted : Instant}, history.latest user = some admitted → now < admitted + duration →
    cooldowns user = some (admitted + duration)

theorem Tracks.later {now later : Instant} {cooldowns : Cooldowns} {history : History}
    (h : Tracks duration now cooldowns history) (hle : now ≤ later) : Tracks duration later cooldowns history :=
  ⟨fun hl => Nat.le_trans (h.past hl) hle, h.kept, fun hl hlt => h.running hl (Nat.lt_of_le_of_lt hle hlt)⟩

def Exact (duration : Duration) (now : Instant) (cooldowns : Cooldowns) (history : History) : Prop :=
  ∀ user deadline, cooldowns user = some deadline ↔
    ∃ admitted, history.latest user = some admitted ∧ deadline = admitted + duration ∧ now < admitted + duration

theorem Exact.tracks {now : Instant} {cooldowns : Cooldowns} {history : History}
    (h : Exact duration now cooldowns history)
    (hpast : ∀ {user : UserId} {admitted : Instant}, history.latest user = some admitted → admitted ≤ now) :
    Tracks duration now cooldowns history := by
  refine ⟨hpast, fun hk => ?_, fun hl hlt => (h _ _).mpr ⟨_, hl, rfl, hlt⟩⟩
  obtain ⟨admitted, hl, rfl, -⟩ := (h _ _).mp hk
  exact ⟨admitted, hl, rfl⟩

/-- A success inserts its own deadline and drops the expired: what is left is exact. -/
theorem retain_exact {call : Reservation duration} {cooldowns : Cooldowns} {history : History}
    (h : Tracks duration call.now cooldowns history) :
    Exact duration call.now
      (retain (Function.update cooldowns call.user (some (call.now + duration))) call.now)
      ((call.user, call.now) :: history) := by
  intro user deadline
  rw [retain_some, latest_cons]
  by_cases hu : user = call.user
  · subst hu
    rw [Function.update_self, if_pos rfl]
    constructor
    · rintro ⟨hd, hlt⟩
      cases hd
      exact ⟨call.now, rfl, rfl, hlt⟩
    · rintro ⟨admitted, hl, rfl, hlt⟩
      cases hl
      exact ⟨rfl, hlt⟩
  · rw [Function.update_of_ne hu, if_neg (Ne.symm hu)]
    constructor
    · rintro ⟨hk, hlt⟩
      obtain ⟨admitted, hl, rfl⟩ := h.kept hk
      exact ⟨admitted, hl, rfl, hlt⟩
    · rintro ⟨admitted, hl, rfl, hlt⟩
      exact ⟨h.running hl hlt, hlt⟩

/-- One call decides as the reference, and the map keeps track of it. -/
theorem reserve_tracks (call : Reservation duration) {cooldowns : Cooldowns} {history : History}
    (h : Tracks duration call.now cooldowns history) :
    (call.reserve cooldowns).1 = (call.consult history).1 ∧
      Tracks duration call.now (call.reserve cooldowns).2 (call.consult history).2 ∧
      ((call.reserve cooldowns).1 = .ok () →
        Exact duration call.now (call.reserve cooldowns).2 (call.consult history).2) := by
  rw [reserve_eq]
  rcases consult_iff call history with ⟨admitted, hl, hlt, hconsult⟩ | ⟨hold, hconsult⟩
  · -- the deadline of that admission is still there
    have hrefused : lockedReserve (commandPath call.context) ⟨call.user, call.now, call.now + duration⟩ cooldowns =
        (.error (.commandOnCooldown (commandPath call.context) (admitted + duration - call.now)), cooldowns) := by
      simp only [lockedReserve, h.running hl hlt, Option.filter_some, decide_eq_true hlt, if_true]
    rw [hrefused, hconsult]
    exact ⟨rfl, h, fun hok => (by cases hok)⟩
  · -- any deadline still there has passed
    have hfree : (lockedReserve (commandPath call.context) ⟨call.user, call.now, call.now + duration⟩ cooldowns).1 =
        .ok () := by
      rw [lockedReserve_iff]
      intro deadline hk
      obtain ⟨admitted, hl, rfl⟩ := h.kept hk
      exact hold admitted hl
    have hexact := retain_exact h
    rw [hconsult, hfree, lockedReserve_ok hfree]
    refine ⟨rfl, hexact.tracks fun {user admitted} hl => ?_, fun _ => hexact⟩
    rw [latest_cons] at hl
    split at hl
    · cases hl
      exact Nat.le_refl _
    · exact h.past hl

/-! ## Sequences of calls -/

theorem inOrder_concat {calls : List (Reservation duration)} {call : Reservation duration}
    (h : InOrder (calls ++ [call])) : InOrder calls ∧ ∀ earlier ∈ calls, earlier.now ≤ call.now := by
  obtain ⟨hcalls, -, hlast⟩ := List.pairwise_append.mp h
  exact ⟨hcalls, fun earlier he => hlast earlier he call (List.mem_singleton.mpr rfl)⟩

/-- After a sequence of calls the map tracks the history at every later instant. -/
theorem run_tracks (calls : List (Reservation duration)) (h : InOrder calls) {now : Instant}
    (hnow : ∀ call ∈ calls, call.now ≤ now) : Tracks duration now (keptAfter calls) (historyAfter calls) := by
  induction calls using List.reverseRecOn generalizing now with
  | nil => exact ⟨fun hl => (by cases hl), fun hk => (by cases hk), fun hl => (by cases hl)⟩
  | append_singleton calls call ih =>
    obtain ⟨hcalls, hlast⟩ := inOrder_concat h
    rw [keptAfter_concat, historyAfter_concat]
    exact (reserve_tracks call (ih hcalls hlast)).2.1.later (hnow call (by simp))

theorem latest_own (calls : List (Reservation duration)) (user : UserId) :
    (historyAfter (calls.filter (·.user == user))).latest user = (historyAfter calls).latest user := by
  induction calls using List.reverseRecOn with
  | nil => rfl
  | append_singleton calls call ih =>
    rw [List.filter_append, historyAfter_concat]
    by_cases hu : call.user = user
    · subst hu
      rw [show [call].filter (·.user == call.user) = [call] by simp, historyAfter_concat]
      unfold Reservation.consult
      rw [ih]
      cases ((historyAfter calls).latest call.user).filter (call.now < · + duration) with
      | some admitted => exact ih
      | none => rw [latest_cons, latest_cons]; simp
    · rw [show [call].filter (·.user == user) = [] by simp [hu], List.append_nil, ih]
      rcases consult_iff call (historyAfter calls) with ⟨_, -, -, hconsult⟩ | ⟨-, hconsult⟩
      · rw [hconsult]
      · rw [hconsult, latest_cons, if_neg hu]

/-- Every call decides as the reference does, whatever the map has forgotten, and the
    calls of other users make no difference to it. -/
theorem pruned_is_history (calls : List (Reservation duration)) (call : Reservation duration)
    (h : InOrder (calls ++ [call])) :
    (∀ error, (call.reserve (keptAfter calls)).1 = .error error ↔
      ∃ admitted, (historyAfter calls).latest call.user = some admitted ∧ call.now < admitted + duration ∧
        error = .commandOnCooldown (commandPath call.context) (admitted + duration - call.now) ∧
        0 < admitted + duration - call.now ∧ admitted + duration - call.now ≤ duration) ∧
    historyAfter (calls ++ [call]) =
      (if (call.reserve (keptAfter calls)).1 = .ok () then [(call.user, call.now)] else []) ++ historyAfter calls ∧
    (call.reserve (keptAfter (calls.filter (·.user == call.user)))).1 = (call.reserve (keptAfter calls)).1 ∧
    (∀ error, (call.reserve (keptAfter calls)).1 = .error error → keptAfter (calls ++ [call]) = keptAfter calls) ∧
    ((call.reserve (keptAfter calls)).1 = .ok () →
      Exact duration call.now (keptAfter (calls ++ [call])) (historyAfter (calls ++ [call]))) ∧
    (duration = 0 →
      (call.reserve (keptAfter calls)).1 = .ok () ∧ ∀ user, keptAfter (calls ++ [call]) user = none) := by
  obtain ⟨hcalls, hlast⟩ := inOrder_concat h
  have htracks := run_tracks calls hcalls hlast
  obtain ⟨hsame, -, hexact⟩ := reserve_tracks call htracks
  rw [keptAfter_concat, historyAfter_concat]
  have hcases := consult_iff call (historyAfter calls)
  refine ⟨fun error => ?_, ?_, ?_, fun error => reserveCooldown_error, hexact, fun hzero => ?_⟩
  · rw [hsame]
    rcases hcases with ⟨admitted, hl, hlt, hconsult⟩ | ⟨hold, hconsult⟩
    · have hpast := htracks.past hl
      rw [hconsult]
      constructor
      · rintro ⟨⟩
        refine ⟨admitted, hl, hlt, rfl, Nat.sub_pos_of_lt hlt, Nat.sub_le_iff_le_add.mpr ?_⟩
        rw [Nat.add_comm]
        exact Nat.add_le_add_left hpast duration
      · rintro ⟨other, hother, -, rfl, -⟩
        rw [hl] at hother
        cases hother
        rfl
    · rw [hconsult]
      refine ⟨fun he => (by cases he), ?_⟩
      rintro ⟨admitted, hl, hlt, -⟩
      exact absurd hlt (Nat.not_lt.mpr (hold admitted hl))
  · rw [hsame]
    rcases hcases with ⟨_, -, -, hconsult⟩ | ⟨-, hconsult⟩ <;> simp [hconsult]
  · have hown : InOrder (calls.filter (·.user == call.user)) := List.Pairwise.filter _ hcalls
    have hownlast : ∀ earlier ∈ calls.filter (·.user == call.user), earlier.now ≤ call.now :=
      fun earlier he => hlast earlier (List.mem_filter.mp he).1
    rw [(reserve_tracks call (run_tracks _ hown hownlast)).1, hsame]
    unfold Reservation.consult
    rw [latest_own]
    cases ((historyAfter calls).latest call.user).filter (call.now < · + duration) <;> rfl
  · subst hzero
    have hok : (call.reserve (keptAfter calls)).1 = .ok () := by
      rw [hsame]
      rcases hcases with ⟨admitted, hl, hlt, -⟩ | ⟨-, hconsult⟩
      · exact absurd (htracks.past hl) (Nat.not_le.mpr hlt)
      · rw [hconsult]
    refine ⟨hok, fun user => Option.eq_none_iff_forall_ne_some.mpr fun deadline hk => ?_⟩
    obtain ⟨admitted, hl, -, hlt⟩ := (hexact hok user deadline).mp hk
    exact Nat.not_le.mpr hlt ((reserve_tracks call htracks).2.1.past hl)

def tenAt (user : UserId) (now : Instant) (h : now + 10 ≤ Instant.last) : Reservation 10 :=
  ⟨Cooldown.callBy user, now, user, rfl, h⟩

/-- User 1 at 10 and user 2 at 12 are admitted; user 1 at 15 has 5 left to wait. -/
theorem pruned_is_history_waits :
    InOrder [tenAt 1 10 (by decide), tenAt 2 12 (by decide), tenAt 1 15 (by decide)] ∧
      ∃ error, ((tenAt 1 15 (by decide)).reserve
        (keptAfter [tenAt 1 10 (by decide), tenAt 2 12 (by decide)])).1 = .error error ∧
          error = .commandOnCooldown "" 5 := by
  have horder : InOrder [tenAt 1 10 (by decide), tenAt 2 12 (by decide), tenAt 1 15 (by decide)] := by
    simp [InOrder, tenAt]
  refine ⟨horder, _, ((pruned_is_history [tenAt 1 10 (by decide), tenAt 2 12 (by decide)] (tenAt 1 15 (by decide))
    horder).1 _).mpr ⟨10, rfl, by decide, rfl, by decide, by decide⟩, by decide⟩

end GloamCommands
