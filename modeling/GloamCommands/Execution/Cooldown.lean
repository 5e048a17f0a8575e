/-
  GloamCommands.Execution.Cooldown — concurrent reservations on one policy.

  Actors. Any number of calls of `reserve_cooldown` with one duration, by any users. A
  call reads the clock (`sample`) and later gets the map's lock; what it does under the
  lock is one step (`reserve`, the source's `lockedReserve`). The clock only moves
  forward (`tick`). `granted` lists the reservations that succeeded, in lock order, and
  `pruned` the deadlines a success removed from the map.

  The instant is read before the lock, so a call can get the lock with an instant older
  than a success that has pruned in between:
  - `pruned_deadline_lets_through`: user 1 is granted at 10 for 10, a second call of
    user 1 reads 12, user 2 is granted at 25 and prunes user 1's deadline 20, and the
    second call, still with 12, is granted.
  - `spacing_iff`: a run keeps every deadline it granted, and so the spacing, exactly if
    no call gets the lock with an instant before a pruned deadline of its user.
-/

import GloamCommands.Execution.Policy
import GloamCommands.Lib.Runs

namespace GloamCommands.Cooldown

open Lib (run run_invariant run_along Along)

structure World where
  clock : Instant
  cooldowns : Cooldowns
  /-- The calls that have read the clock and wait for the lock, with their command's path. -/
  waiting : Nat → Option (String × Sample)
  granted : List (UserId × Instant)
  pruned : UserId → List Instant

inductive Move where
  | tick (nanos : Nat)
  | sample (call : Nat) (context : Context)
  | reserve (call : Nat)

def World.start (clock : Instant) : World := ⟨clock, fun _ => none, fun _ => none, [], fun _ => []⟩

/-- What a success at `now` removes of the map it leaves to `retain`. -/
def expired (cooldowns : Cooldowns) (now : Instant) (user : UserId) : List Instant :=
  ((cooldowns user).filter (fun deadline => !decide (now < deadline))).toList

variable (duration : Duration)

def step (w : World) : Move → Option World
  | .tick nanos => some { w with clock := w.clock + nanos }
  | .sample call context =>
    if (w.waiting call).isSome then none
    else
      match sampleCooldown context w.clock duration with
      | .error _ => some w
      | .ok sample => some { w with waiting := Function.update w.waiting call (some (commandPath context, sample)) }
  | .reserve call =>
    match w.waiting call with
    | none => none
    | some (path, sample) =>
      let waiting := Function.update w.waiting call none
      match lockedReserve path sample w.cooldowns with
      | (.error _, cooldowns) => some { w with cooldowns := cooldowns, waiting := waiting }
      | (.ok (), cooldowns) =>
        let inserted := Function.update w.cooldowns sample.user (some sample.readyAt)
        some { w with
          cooldowns := cooldowns
          waiting := waiting
          granted := w.granted ++ [(sample.user, sample.now)]
          pruned := fun user => w.pruned user ++ expired inserted sample.now user }

/-! ## What a step can do -/

inductive Moves (w : World) : Move → World → Prop
  | tick (nanos : Nat) : Moves w (.tick nanos) { w with clock := w.clock + nanos }
  | fail {call : Nat} {context : Context} : Moves w (.sample call context) w
  | sample {call : Nat} {context : Context} {sample : Sample} : sample.now = w.clock →
      sample.readyAt = w.clock + duration →
      Moves w (.sample call context)
        { w with waiting := Function.update w.waiting call (some (commandPath context, sample)) }
  | refuse {call : Nat} {path : String} {sample : Sample} {deadline : Instant} : w.waiting call = some (path, sample) →
      w.cooldowns sample.user = some deadline → sample.now < deadline →
      Moves w (.reserve call) { w with waiting := Function.update w.waiting call none }
  | grant {call : Nat} {path : String} {sample : Sample} : w.waiting call = some (path, sample) →
      (∀ deadline, w.cooldowns sample.user = some deadline → deadline ≤ sample.now) →
      Moves w (.reserve call) { w with
        cooldowns := retain (Function.update w.cooldowns sample.user (some sample.readyAt)) sample.now
        waiting := Function.update w.waiting call none
        granted := w.granted ++ [(sample.user, sample.now)]
        pruned := fun user => w.pruned user ++
          expired (Function.update w.cooldowns sample.user (some sample.readyAt)) sample.now user }

variable {duration}

theorem step_moves {w w' : World} {m : Move} (h : step duration w m = some w') : Moves duration w m w' := by
  cases m with
  | tick nanos => cases h; exact .tick nanos
  | sample call context =>
    simp only [step] at h
    split at h
    · cases h
    split at h
    · cases h; exact .fail
    · rename_i sample hs
      cases h
      obtain ⟨-, hn, hr⟩ := sampleCooldown_ok hs
      exact .sample hn hr
  | reserve call =>
    simp only [step] at h
    split at h
    · cases h
    rename_i path sample hw
    cases hres : lockedReserve path sample w.cooldowns with
    | mk result cooldowns =>
      cases result with
      | error e =>
        rw [hres] at h
        cases h
        have herr : (lockedReserve path sample w.cooldowns).1 = .error e := by rw [hres]
        have hsame := lockedReserve_error herr
        rw [hres] at hsame
        change cooldowns = w.cooldowns at hsame
        subst hsame
        have hno : ¬ ∀ deadline, w.cooldowns sample.user = some deadline → deadline ≤ sample.now := by
          rw [← lockedReserve_iff path, herr]
          intro h; cases h
        push Not at hno
        obtain ⟨deadline, hd, hlt⟩ := hno
        exact .refuse hw hd hlt
      | ok _ =>
        rw [hres] at h
        cases h
        have hok : (lockedReserve path sample w.cooldowns).1 = .ok () := by rw [hres]
        have hmap := lockedReserve_ok hok
        rw [hres] at hmap
        change cooldowns = _ at hmap
        subst hmap
        exact .grant hw ((lockedReserve_iff path sample w.cooldowns).mp hok)

/-! ## The law and the condition -/

def Spaced (duration : Duration) (granted : List (UserId × Instant)) : Prop :=
  granted.Pairwise fun a b => a.1 = b.1 → a.2 + duration ≤ b.2 ∨ b.2 + duration ≤ a.2

def NeverEarly (duration : Duration) (granted : List (UserId × Instant)) : Prop :=
  granted.Pairwise fun a b => a.1 = b.1 → a.2 + duration ≤ b.2

/-- A call gets the lock with an instant before a pruned deadline of its user only while
    a later deadline still refuses it. -/
def Unpruned (w : World) (m : Move) : Prop :=
  ∀ call path sample deadline, m = .reserve call → w.waiting call = some (path, sample) →
    deadline ∈ w.pruned sample.user → sample.now < deadline →
    ∃ kept, w.cooldowns sample.user = some kept ∧ sample.now < kept

theorem spaced_of_neverEarly {granted : List (UserId × Instant)} (h : NeverEarly duration granted) :
    Spaced duration granted :=
  List.Pairwise.imp (fun h he => .inl (h he)) h

theorem kept_or_expired {cooldowns : Cooldowns} {now deadline : Instant} {user : UserId}
    (h : cooldowns user = some deadline) :
    retain cooldowns now user = some deadline ∨ deadline ∈ expired cooldowns now user := by
  by_cases hlt : now < deadline
  · exact .inl (retain_some.mpr ⟨h, hlt⟩)
  · right
    simp [expired, h, Option.filter, hlt]

theorem mem_expired {cooldowns : Cooldowns} {now deadline : Instant} {user : UserId}
    (h : deadline ∈ expired cooldowns now user) : cooldowns user = some deadline := by
  unfold expired at h
  rw [Option.mem_toList, Option.filter_eq_some_iff] at h
  exact h.1

/-- Every granted deadline is in the map, in what was pruned, or superseded there. -/
def Accounted (duration : Duration) (w : World) (g : UserId × Instant) : Prop :=
  (∃ deadline, w.cooldowns g.1 = some deadline ∧ g.2 + duration ≤ deadline) ∨
    ∃ deadline ∈ w.pruned g.1, g.2 + duration ≤ deadline

/-- Every deadline in the map, pruned, or about to be set was granted or sampled. -/
structure Inv (duration : Duration) (w : World) : Prop where
  sampled : ∀ call path sample, w.waiting call = some (path, sample) → sample.readyAt = sample.now + duration
  accounted : ∀ g ∈ w.granted, Accounted duration w g
  kept : ∀ user deadline, w.cooldowns user = some deadline →
    ∃ now, (user, now) ∈ w.granted ∧ deadline = now + duration
  gone : ∀ user deadline, deadline ∈ w.pruned user → ∃ now, (user, now) ∈ w.granted ∧ deadline = now + duration

theorem inv_start (clock : Instant) : Inv duration (World.start clock) := by
  refine ⟨?_, ?_, ?_, ?_⟩
  · intro call path sample h; cases h
  · intro g hg; cases hg
  · intro user deadline h; cases h
  · intro user deadline h; cases h

theorem sampled_update {w : World} {call : Nat} {v : Option (String × Sample)}
    (hs : ∀ call path sample, w.waiting call = some (path, sample) → sample.readyAt = sample.now + duration)
    (hv : ∀ path sample, v = some (path, sample) → sample.readyAt = sample.now + duration) :
    ∀ call' path sample, Function.update w.waiting call v call' = some (path, sample) →
      sample.readyAt = sample.now + duration := by
  intro call' path sample h
  by_cases he : call' = call
  · subst he
    rw [Function.update_self] at h
    exact hv path sample h
  · rw [Function.update_of_ne he] at h
    exact hs call' path sample h

theorem inserted_granted {w : World} (hi : Inv duration w) {call : Nat} {path : String} {sample : Sample}
    (hw : w.waiting call = some (path, sample)) {user : UserId} {deadline : Instant}
    (h : Function.update w.cooldowns sample.user (some sample.readyAt) user = some deadline) :
    ∃ now, (user, now) ∈ w.granted ++ [(sample.user, sample.now)] ∧ deadline = now + duration := by
  by_cases hu : user = sample.user
  · subst hu
    rw [Function.update_self] at h
    refine ⟨sample.now, List.mem_append_right _ (List.mem_singleton_self _), ?_⟩
    rw [← Option.some.inj h]
    exact hi.sampled call path sample hw
  · rw [Function.update_of_ne hu] at h
    obtain ⟨now, hm, hd⟩ := hi.kept user deadline h
    exact ⟨now, List.mem_append_left _ hm, hd⟩

/-- The grants that are accounted for stay so when one more is made no earlier than
    its user's deadlines. -/
theorem accounted_grant {w : World} (hi : Inv duration w) {call : Nat} {path : String} {sample : Sample}
    (hw : w.waiting call = some (path, sample))
    (hfree : ∀ deadline, w.cooldowns sample.user = some deadline → deadline ≤ sample.now) {w' : World}
    (hmap : w'.cooldowns = retain (Function.update w.cooldowns sample.user (some sample.readyAt)) sample.now)
    (hpruned : w'.pruned = fun user => w.pruned user ++
      expired (Function.update w.cooldowns sample.user (some sample.readyAt)) sample.now user) :
    ∀ g ∈ w.granted ++ [(sample.user, sample.now)], Accounted duration w' g := by
  have hready := hi.sampled call path sample hw
  have hinserted : ∀ user deadline (low : Instant),
      Function.update w.cooldowns sample.user (some sample.readyAt) user = some deadline → low ≤ deadline →
      (∃ d, w'.cooldowns user = some d ∧ low ≤ d) ∨ ∃ d ∈ w'.pruned user, low ≤ d := by
    intro user deadline low h hle
    rcases @kept_or_expired _ sample.now _ _ h with hk | he
    · exact .inl ⟨deadline, by rw [hmap]; exact hk, hle⟩
    · exact .inr ⟨deadline, by rw [hpruned]; exact List.mem_append_right _ he, hle⟩
  intro g hg
  rcases List.mem_append.mp hg with hg | hg
  · rcases hi.accounted g hg with ⟨deadline, hd, hle⟩ | ⟨deadline, hd, hle⟩
    · by_cases hu : g.1 = sample.user
      · refine hinserted g.1 sample.readyAt _ (by rw [hu, Function.update_self]) ?_
        rw [hu] at hd
        rw [hready]
        exact Nat.le_trans hle (Nat.le_trans (hfree deadline hd) (Nat.le_add_right _ _))
      · exact hinserted g.1 deadline _ (by rw [Function.update_of_ne hu]; exact hd) hle
    · exact .inr ⟨deadline, by rw [hpruned]; exact List.mem_append_left _ hd, hle⟩
  · rw [List.mem_singleton] at hg
    subst hg
    exact hinserted sample.user sample.readyAt _ (Function.update_self _ _ _) (by rw [hready])

theorem inv_moves {w w' : World} {m : Move} (hi : Inv duration w) (h : Moves duration w m w') : Inv duration w' := by
  cases h with
  | tick nanos => exact ⟨hi.sampled, hi.accounted, hi.kept, hi.gone⟩
  | fail => exact hi
  | sample hn hr =>
    refine ⟨sampled_update hi.sampled fun path sample h => ?_, hi.accounted, hi.kept, hi.gone⟩
    cases h
    rw [hr, hn]
  | refuse hw hd hlt =>
    exact ⟨sampled_update hi.sampled fun _ _ h => (by cases h), hi.accounted, hi.kept, hi.gone⟩
  | @grant call path sample hw hfree =>
    refine ⟨sampled_update hi.sampled fun _ _ h => (by cases h), accounted_grant hi hw hfree rfl rfl, ?_, ?_⟩
    · intro user deadline h
      exact inserted_granted hi hw (retain_some.mp h).1
    · intro user deadline h
      rcases List.mem_append.mp h with h | h
      · obtain ⟨now, hm, hd⟩ := hi.gone user deadline h
        exact ⟨now, List.mem_append_left _ hm, hd⟩
      · exact inserted_granted hi hw (mem_expired h)

theorem neverEarly_moves {w w' : World} {m : Move} (hi : Inv duration w) (hn : NeverEarly duration w.granted)
    (hg : Unpruned w m) (h : Moves duration w m w') : NeverEarly duration w'.granted := by
  cases h with
  | tick | fail | sample | refuse => exact hn
  | @grant call path sample hw hfree =>
    refine List.pairwise_append.mpr ⟨hn, List.pairwise_singleton _ _, fun g hg' b hb hu => ?_⟩
    rw [List.mem_singleton] at hb
    subst hb
    change g.1 = sample.user at hu
    rcases hi.accounted g hg' with ⟨deadline, hd, hle⟩ | ⟨deadline, hd, hle⟩
    · rw [hu] at hd
      exact Nat.le_trans hle (hfree deadline hd)
    · rw [hu] at hd
      refine Nat.le_trans hle (Nat.le_of_not_lt fun hlt => ?_)
      obtain ⟨kept, hk, hlt'⟩ := hg call path sample deadline rfl hw hd hlt
      exact absurd (hfree kept hk) (Nat.not_le.mpr hlt')

theorem granted_prefix {w w' : World} {moves : List Move} (h : run (step duration) w moves = some w') :
    ∃ more, w'.granted = w.granted ++ more := by
  refine Lib.run_relates (I := fun _ => True) (R := fun w w' => ∃ more, w'.granted = w.granted ++ more)
    (fun w => ⟨[], (List.append_nil _).symm⟩) ?_ (fun _ _ _ _ _ => trivial) ?_ h trivial
  · intro a b c ⟨m, hm⟩ ⟨m', hm'⟩
    exact ⟨m ++ m', by rw [hm', hm, List.append_assoc]⟩
  · intro a m b _ hs
    cases step_moves hs with
    | tick | fail | sample | refuse => exact ⟨[], (List.append_nil _).symm⟩
    | grant => exact ⟨_, rfl⟩

theorem neverEarly_prefix {granted more : List (UserId × Instant)} (h : NeverEarly duration (granted ++ more)) :
    NeverEarly duration granted :=
  (List.pairwise_append.mp h).1

/-- A step that breaks the condition grants early. -/
theorem unpruned_of_neverEarly {w w' : World} {m : Move} (hi : Inv duration w) (hs : step duration w m = some w')
    (hn : NeverEarly duration w'.granted) : Unpruned w m := by
  intro call path sample deadline hm hw hd hlt
  subst hm
  by_contra hno
  have hfree : ∀ kept, w.cooldowns sample.user = some kept → kept ≤ sample.now := by
    intro kept hk
    exact Nat.le_of_not_lt fun hlt => hno ⟨kept, hk, hlt⟩
  obtain ⟨now, hmem, rfl⟩ := hi.gone sample.user deadline hd
  cases step_moves hs with
  | @refuse _ path' sample' kept hw' hk hlt' =>
    rw [hw] at hw'
    cases hw'
    exact absurd (hfree kept hk) (Nat.not_le.mpr hlt')
  | @grant _ path' sample' hw' _ =>
    rw [hw] at hw'
    cases hw'
    have hle := (List.pairwise_append.mp hn).2.2 (sample.user, now) hmem (sample.user, sample.now)
      (List.mem_singleton_self _) rfl
    exact absurd hle (Nat.not_le.mpr hlt)

theorem along_of_neverEarly {moves : List Move} : ∀ {w w' : World}, Inv duration w →
    run (step duration) w moves = some w' → NeverEarly duration w'.granted → Along (step duration) Unpruned w moves := by
  induction moves with
  | nil => intro w w' _ _ _; trivial
  | cons m moves ih =>
    intro w w' hi hr hn
    obtain ⟨next, hs, hr'⟩ := Lib.run_cons hr
    have hn' : NeverEarly duration next.granted := by
      obtain ⟨more, hm⟩ := granted_prefix hr'
      rw [hm] at hn
      exact neverEarly_prefix hn
    refine ⟨unpruned_of_neverEarly hi hs hn', fun w₁ hs₁ => ?_⟩
    rw [hs] at hs₁
    cases hs₁
    exact ih (inv_moves hi (step_moves hs)) hr' hn

/-- In every run of any number of calls by any users: the grants of a user are a duration
    apart and none is early, exactly if no call gets the lock with an instant before a
    pruned deadline of its user. -/
theorem spacing_iff {clock : Instant} {moves : List Move} {w : World}
    (h : run (step duration) (World.start clock) moves = some w) :
    (Spaced duration w.granted ∧ NeverEarly duration w.granted) ↔
      Along (step duration) Unpruned (World.start clock) moves := by
  constructor
  · intro ⟨_, hn⟩
    exact along_of_neverEarly (inv_start clock) h hn
  · intro hg
    have hinv : Inv duration w ∧ NeverEarly duration w.granted :=
      run_along (I := fun w => Inv duration w ∧ NeverEarly duration w.granted)
        (fun _ _ _ hi hg hs => ⟨inv_moves hi.1 (step_moves hs), neverEarly_moves hi.1 hi.2 hg (step_moves hs)⟩)
        h hg ⟨inv_start clock, List.Pairwise.nil⟩
    exact ⟨spaced_of_neverEarly hinv.2, hinv.2⟩

def callBy (user : UserId) : Context where
  interaction := ⟨0, 0, .applicationCommand, "", none, none, some user, none, .ok none⟩
  commandData := ⟨"", .chatInput, []⟩
  commandPath := []
  commandOptions := []
  shardId := none

theorem spacing_iff_in_turn :
    let moves : List Move := [.sample 0 (callBy 1), .reserve 0, .tick 10, .sample 0 (callBy 1), .reserve 0]
    ∃ w, run (step 10) (World.start 10) moves = some w ∧ w.granted = [(1, 10), (1, 20)] ∧ Spaced 10 w.granted := by
  intro moves
  refine ⟨_, rfl, rfl, ((@spacing_iff 10 10 moves _ rfl).mpr ?_).1⟩
  refine ⟨fun _ _ _ _ hm => (by cases hm), fun s hs => ?_⟩
  obtain rfl := Option.some.inj hs
  refine ⟨fun _ _ _ _ hm hw hd => ?_, fun s hs => ?_⟩
  · cases hm; cases hw; cases hd
  obtain rfl := Option.some.inj hs
  refine ⟨fun _ _ _ _ hm => (by cases hm), fun s hs => ?_⟩
  obtain rfl := Option.some.inj hs
  refine ⟨fun _ _ _ _ hm => (by cases hm), fun s hs => ?_⟩
  obtain rfl := Option.some.inj hs
  refine ⟨fun _ _ _ _ hm hw hd => ?_, fun s hs => trivial⟩
  cases hm; cases hw; cases hd

/-- Duration 10: user 1 is granted at 10 and at 12, as user 2 prunes in between. -/
theorem pruned_deadline_lets_through :
    let moves : List Move := [.sample 0 (callBy 1), .reserve 0, .tick 2, .sample 1 (callBy 1), .tick 13,
      .sample 2 (callBy 2), .reserve 2, .reserve 1]
    ∃ w, run (step 10) (World.start 10) moves = some w ∧ w.granted = [(1, 10), (2, 25), (1, 12)] ∧
      ¬ Spaced 10 w.granted := by
  intro moves
  refine ⟨_, rfl, rfl, ?_⟩
  intro h
  have h12 := List.rel_of_pairwise_cons h (show (1, 12) ∈ [(2, 25), (1, 12)] by simp) rfl
  exact absurd h12 (by decide)

end GloamCommands.Cooldown
