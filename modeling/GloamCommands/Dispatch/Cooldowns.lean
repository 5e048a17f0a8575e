/-
  GloamCommands.Dispatch.Cooldowns — one leaf's cooldown in a managed run
  (`CommandPolicy::evaluate`, `reserve_cooldown` in crates/gloam-commands/src/policy.rs).

  The map is in the policy, and the policy in the leaf. A run has the tasks of many leaves
  between their awaits, with hooks, handlers and autocompletion; what of it comes to the
  map of one leaf is a list of reservations (`reservedBy`), each in the order of the lock,
  with the instant it read before.
  - `leaf_cooldown`: the leaf's map is what its own reservations make of an empty one, each
    decides as after the earlier of them, whatever the rest of the run does, and with
    instants in lock order one user's invocations get through a cooldown apart.
-/

import GloamCommands.Dispatch.Managed
import GloamCommands.Execution.History
import GloamCommands.Execution.Order

namespace GloamCommands.Dispatch

open Execution

variable {D : Type} {duration : Duration}

/-! ## Reservations -/

/-- A call of `reserve_cooldown`, and what it returned. -/
abbrev Reserved (duration : Duration) := Reservation duration × Except Error Unit

/-- The reservation that the policy's await comes to: it has passed what is before the
    cooldown, the user is known, and the clock can name the deadline. -/
def PreparedCommand.reserved (duration : Duration) (command : PreparedCommand D) (clock : Instant) (w : Execution.World D) :
    List (Reserved duration) :=
  match firstFailure (entryOutcomes command.policy command.context),
    (runChecks command.context command.policy.checks w.data).1 with
  | .ok (), .ok () =>
    match hinvoked : invokingUser command.context.interaction with
    | none => []
    | some user =>
      if hrepresentable : clock + duration ≤ Instant.last then
        [(⟨command.context, clock, user, hinvoked, hrepresentable⟩,
          (performPolicy command.policy command.context clock w).1)]
      else []
  | _, _ => []

def Progress.reserved (path : List String) (duration : Duration) (p : Progress D) (clock : Instant)
    (w : Execution.World D) : List (Reserved duration) :=
  match p.point with
  | .policy => if p.command.context.commandPath = path then p.command.reserved duration clock w else []
  | _ => []

def reservations (path : List String) (duration : Duration) : Watch D (Reserved duration) where
  started _ _ := []
  awaited _ p clock world := p.reserved path duration clock world

/-- Each reservation returned what `reserve_cooldown` does after the earlier ones. -/
def Decided (log : List (Reserved duration)) : Prop :=
  ∀ earlier entry later, log = earlier ++ entry :: later → entry.2 = (entry.1.reserve (keptAfter (earlier.map (·.1)))).1

theorem decided_nil : Decided ([] : List (Reserved duration)) := by
  intro earlier entry later h
  exact absurd h.symm (List.append_ne_nil_of_right_ne_nil _ (List.cons_ne_nil _ _))

theorem decided_concat {log : List (Reserved duration)} {entry : Reserved duration} (h : Decided log)
    (hentry : entry.2 = (entry.1.reserve (keptAfter (log.map (·.1)))).1) : Decided (log ++ [entry]) := by
  intro earlier other later hsplit
  rcases List.eq_nil_or_concat later with rfl | ⟨init, last, rfl⟩
  · obtain ⟨rfl, hlast⟩ := List.append_inj' hsplit rfl
    cases hlast
    exact hentry
  · rw [List.concat_eq_append, ← List.cons_append, ← List.append_assoc] at hsplit
    obtain ⟨hlog, -⟩ := List.append_inj' hsplit rfl
    exact h earlier other init hlog

theorem decided_init {log : List (Reserved duration)} {entry : Reserved duration} (h : Decided (log ++ [entry])) :
    Decided log := by
  intro earlier other later hsplit
  exact h earlier other (later ++ [entry]) (by rw [hsplit, List.append_assoc, List.cons_append])

/-! ## One await -/

theorem reserve_of_reserveCooldown {context : Context} {clock : Instant} {user : UserId}
    (hinvoked : invokingUser context.interaction = some user) (hrepresentable : clock + duration ≤ Instant.last)
    (cooldowns : Cooldowns) : reserveCooldown context clock duration cooldowns =
      Reservation.reserve ⟨context, clock, user, hinvoked, hrepresentable⟩ cooldowns := rfl

/-- A call that cannot name its user or its deadline leaves the map alone. -/
theorem unsampled_unchanged {context : Context} {clock : Instant} {cooldowns : Cooldowns}
    (h : ∀ user, invokingUser context.interaction = some user → ¬ clock + duration ≤ Instant.last) :
    (reserveCooldown context clock duration cooldowns).2 = cooldowns := by
  unfold reserveCooldown
  cases hsample : sampleCooldown context clock duration with
  | error error => rfl
  | ok sample =>
    obtain ⟨huser, -, -⟩ := sampleCooldown_ok hsample
    unfold sampleCooldown at hsample
    rw [huser] at hsample
    simp only [Instant.checkedAdd, if_neg (h _ huser)] at hsample
    cases hsample

/-- The policy's await makes at most one reservation, and does to the leaf's map what that does. -/
theorem reserved_spec {command : PreparedCommand D} (clock : Instant) (w : Execution.World D)
    (hcooldown : command.policy.cooldown = some duration) :
    let after := performPolicy command.policy command.context clock w
    (command.reserved duration clock w = [] ∧
      after.2.cooldowns command.context.commandPath = w.cooldowns command.context.commandPath) ∨
    ∃ call, command.reserved duration clock w = [(call, after.1)] ∧
      (after.1, after.2.cooldowns command.context.commandPath) =
        call.reserve (w.cooldowns command.context.commandPath) := by
  intro after
  have hafter : after.2.cooldowns command.context.commandPath =
      (command.policy.evaluate command.context clock w.data (w.cooldowns command.context.commandPath)).2.2 :=
    Function.update_self ..
  have hresult : after.1 =
      (command.policy.evaluate command.context clock w.data (w.cooldowns command.context.commandPath)).1 := rfl
  rw [evaluate_eq] at hafter hresult
  unfold PreparedCommand.reserved
  rcases hentry : firstFailure (entryOutcomes command.policy command.context) with error | ⟨⟩
  · rw [hentry] at hafter
    exact .inl ⟨rfl, hafter⟩
  rcases hchecks : runChecks command.context command.policy.checks w.data with ⟨error | ⟨⟩, data⟩
  · rw [hentry, hchecks] at hafter
    exact .inl ⟨rfl, hafter⟩
  simp only [hentry, hchecks, hcooldown] at hafter hresult
  dsimp only
  split
  · rename_i hinvoked
    refine .inl ⟨rfl, hafter.trans (unsampled_unchanged fun user huser => ?_)⟩
    rw [hinvoked] at huser
    cases huser
  · rename_i user hinvoked
    split
    · rename_i hrepresentable
      refine .inr ⟨⟨command.context, clock, user, hinvoked, hrepresentable⟩, rfl, ?_⟩
      rw [hafter, hresult, reserve_of_reserveCooldown hinvoked hrepresentable]
    · rename_i hrepresentable
      exact .inl ⟨rfl, hafter.trans (unsampled_unchanged fun _ _ => hrepresentable)⟩

theorem await_cooldowns {command : PreparedCommand D} {clock : Instant} {w w' : Execution.World D} {point : Point}
    {outcome : Except Error Unit} (h : command.await clock w point = some (outcome, w')) (hpolicy : point ≠ .policy) :
    w'.cooldowns = w.cooldowns := by
  cases point with
  | policy => exact absurd rfl hpolicy
  | handler =>
    cases h
    rfl
  | returned result => cases h
  | _ =>
    obtain ⟨future, -, h⟩ := Option.map_eq_some_iff.mp h
    cases h
    rfl

theorem await_other {command : PreparedCommand D} {clock : Instant} {w w' : Execution.World D} {point : Point}
    {outcome : Except Error Unit} {path : List String} (h : command.await clock w point = some (outcome, w'))
    (hpath : command.context.commandPath ≠ path) : w'.cooldowns path = w.cooldowns path := by
  by_cases hpolicy : point = .policy
  · subst hpolicy
    cases h
    exact Function.update_of_ne (Ne.symm hpath) ..
  · rw [await_cooldowns h hpolicy]

/-! ## Whole runs -/

/-- The leaf's map is what its reservations have made of an empty one. -/
structure Leafed (path : List String) (workers : Workers D) (log : List (Reserved duration)) : Prop where
  kept : workers.world.cooldowns path = keptAfter (log.map (·.1))
  decided : Decided log

theorem put_world (workers : Workers D) (task : Nat) (p : Progress D) (world : Execution.World D) :
    (workers.put task p world).world = world := by
  unfold Workers.put
  dsimp only
  split <;> rfl

def CoolsDown (framework : Framework D) (path : List String) (duration : Duration) : Prop :=
  ∃ leaf policy, framework.registry.leafAt path = some leaf ∧ leaf.policy = some policy ∧ policy.cooldown = some duration

theorem ofLeaf_cooldown {framework : Framework D} {command : PreparedCommand D}
    (hcools : CoolsDown framework command.context.commandPath duration) (h : OfLeaf framework command) :
    command.policy.cooldown = some duration := by
  obtain ⟨leaf, policy, hleaf, hpolicy, hcooldown⟩ := hcools
  obtain ⟨other, hother, hshared⟩ := h
  rw [hleaf] at hother
  cases hother
  rw [hpolicy] at hshared
  cases hshared
  exact hcooldown

theorem reserved_elsewhere {path : List String} {p : Progress D} (clock : Instant) (w : Execution.World D)
    (h : p.point ≠ .policy ∨ p.command.context.commandPath ≠ path) : p.reserved path duration clock w = [] := by
  unfold Progress.reserved
  split
  · rename_i hpoint
    rcases h with h | h
    · exact absurd hpoint h
    · exact if_neg h
  · rfl

theorem await_reserved {framework : Framework D} {path : List String} {workers : Workers D} {log : List (Reserved duration)}
    (hcools : CoolsDown framework path duration) (h : Leafed path workers log) {p next : Progress D}
    {clock : Instant} {world : Execution.World D} (hleaf : OfLeaf framework p.command)
    (hadvance : p.advance clock workers.world = some (next, world)) :
    world.cooldowns path = keptAfter ((log ++ p.reserved path duration clock workers.world).map (·.1)) ∧
      Decided (log ++ p.reserved path duration clock workers.world) := by
  obtain ⟨-, step, outcome, -, hawait, -⟩ := Progress.advance_inv hadvance
  by_cases hpath : p.command.context.commandPath = path
  · by_cases hpoint : p.point = .policy
    · subst hpath
      have hshared := ofLeaf_cooldown hcools hleaf
      have hreserved : p.reserved p.command.context.commandPath duration clock workers.world =
          p.command.reserved duration clock workers.world := by
        rw [Progress.reserved, hpoint]
        exact if_pos rfl
      rw [hpoint] at hawait
      cases hawait
      rw [hreserved]
      rcases reserved_spec clock workers.world hshared with ⟨hnone, hsame⟩ | ⟨call, hone, hreserve⟩
      · rw [hnone, List.append_nil]
        exact ⟨hsame.trans h.kept, h.decided⟩
      · rw [h.kept] at hreserve
        rw [hone, List.map_append]
        refine ⟨?_, decided_concat h.decided (congrArg Prod.fst hreserve)⟩
        exact (congrArg Prod.snd hreserve).trans (keptAfter_concat _ call).symm
    · rw [reserved_elsewhere clock workers.world (.inl hpoint), List.append_nil, await_cooldowns hawait hpoint]
      exact ⟨h.kept, h.decided⟩
  · rw [reserved_elsewhere clock workers.world (.inr hpath), List.append_nil, await_other hawait hpath]
    exact ⟨h.kept, h.decided⟩

theorem leafed_kept {framework : Framework D} {path : List String} (hcools : CoolsDown framework path duration) :
    Kept (reservations path duration) framework (Leafed path) where
  forgets h := ⟨h.kept, h.decided⟩
  starts {workers log task command} h _ _ _ := by
    refine ⟨?_, ?_⟩
    · rw [put_world, show log ++ (reservations path duration).started task command = log from List.append_nil log]
      exact h.kept
    · rw [show log ++ (reservations path duration).started task command = log from List.append_nil log]
      exact h.decided
  resumes h hleaf _ hadvance := by
    obtain ⟨hkept, hdecided⟩ := await_reserved hcools h hleaf hadvance
    refine ⟨?_, hdecided⟩
    rw [put_world]
    exact hkept
  completes {workers log task prepared rest} h _ := by
    refine ⟨?_, h.decided⟩
    show (prepared.execute rest workers.world).2.cooldowns path = _
    rw [← h.kept]
    exact congrFun (executeAutocomplete_separate ..).1 path
  spawns h _ := ⟨h.kept, h.decided⟩

/-! ## Spacing -/

/-- An admission is in the history, or a later one of its user is. -/
theorem admitted_latest (log : List (Reserved duration)) (hdecided : Decided log) (horder : InOrder (log.map (·.1))) :
    ∀ entry ∈ log, entry.2 = .ok () → ∃ admitted, (historyAfter (log.map (·.1))).latest entry.1.user = some admitted ∧
      entry.1.now ≤ admitted := by
  induction log using List.reverseRecOn with
  | nil => exact fun entry h => (by cases h)
  | append_singleton log last ih =>
    intro entry hentry hok
    rw [List.map_append] at horder
    obtain ⟨hcalls, hlast⟩ := inOrder_concat horder
    have hearlier := decided_init hdecided
    obtain ⟨hsame, -, -⟩ := reserve_tracks last.1 (run_tracks (log.map (·.1)) hcalls hlast)
    rw [List.map_append, List.map_singleton, historyAfter_concat]
    rcases List.mem_append.mp hentry with hentry | hentry
    · obtain ⟨admitted, hlatest, hle⟩ := ih hearlier hcalls entry hentry hok
      rcases consult_iff last.1 (historyAfter (log.map (·.1))) with ⟨_, -, -, hconsult⟩ | ⟨-, hconsult⟩
      · rw [hconsult]
        exact ⟨admitted, hlatest, hle⟩
      · rw [hconsult, latest_cons]
        split
        · refine ⟨last.1.now, rfl, ?_⟩
          exact hlast entry.1 (List.mem_map_of_mem hentry)
        · exact ⟨admitted, hlatest, hle⟩
    · rw [List.mem_singleton] at hentry
      subst hentry
      rw [hdecided log entry [] rfl, hsame] at hok
      rcases consult_iff entry.1 (historyAfter (log.map (·.1))) with ⟨_, -, -, hconsult⟩ | ⟨-, hconsult⟩
      · rw [hconsult] at hok
        cases hok
      · rw [hconsult, latest_cons, if_pos rfl]
        exact ⟨entry.1.now, rfl, Nat.le_refl _⟩

/-- One user's admissions are a duration apart, if the instants are in lock order. -/
theorem decided_spaced (log : List (Reserved duration)) (hdecided : Decided log) (horder : InOrder (log.map (·.1))) :
    log.Pairwise fun earlier later => earlier.1.user = later.1.user → earlier.2 = .ok () → later.2 = .ok () →
      earlier.1.now + duration ≤ later.1.now := by
  induction log using List.reverseRecOn with
  | nil => exact .nil
  | append_singleton log last ih =>
    rw [List.map_append] at horder
    obtain ⟨hcalls, hlast⟩ := inOrder_concat horder
    have hearlier := decided_init hdecided
    refine List.pairwise_append.mpr ⟨ih hearlier hcalls, List.pairwise_singleton .., ?_⟩
    intro entry hentry other hother huser hok hlater
    rw [List.mem_singleton] at hother
    subst hother
    obtain ⟨admitted, hlatest, hle⟩ := admitted_latest log hearlier hcalls entry hentry hok
    obtain ⟨hsame, -, -⟩ := reserve_tracks other.1 (run_tracks (log.map (·.1)) hcalls hlast)
    rw [hdecided log other [] rfl, hsame] at hlater
    rcases consult_iff other.1 (historyAfter (log.map (·.1))) with ⟨_, -, -, hconsult⟩ | ⟨hold, -⟩
    · rw [hconsult] at hlater
      cases hlater
    · exact Nat.le_trans (Nat.add_le_add_right hle duration) (hold admitted (huser ▸ hlatest))

/-- In every managed run from empty maps, and after it, the map of a leaf with a cooldown is
    what the reservations of its own invocations make of an empty one, and each of them
    returned what it does after the earlier of them; so with instants in lock order one
    user's invocations pass the policy a cooldown apart. What the tasks of other leaves do,
    and the hooks, handlers and autocompletion of this one, makes no difference. -/
theorem leaf_cooldown (framework : Framework D) (synchronize : ApplicationId → Except Error Unit) (data : D)
    (deliveries : List Delivery) (last later : List TaskMove) {path : List String}
    (hcools : CoolsDown framework path duration) :
    let world : Execution.World D := ⟨data, fun _ _ => none, []⟩
    let dropped := (managedRun framework synchronize world last deliveries).dropped
    let log := (reservations path duration).managedLog framework synchronize world last later deliveries
    (dropped.moves later).world.cooldowns path = keptAfter (log.map (·.1)) ∧ Decided log ∧
      (InOrder (log.map (·.1)) → log.Pairwise fun earlier later => earlier.1.user = later.1.user →
        earlier.2 = .ok () → later.2 = .ok () → earlier.1.now + duration ≤ later.1.now) := by
  intro world dropped log
  have hstart : Leafed path (Workers.start world) ([] : List (Reserved duration)) := ⟨rfl, decided_nil⟩
  have hleafed := managed_invariant (leafed_kept hcools) synchronize last later deliveries hstart
  refine ⟨?_, hleafed.decided, decided_spaced log hleafed.decided⟩
  rw [dropped_world]
  exact hleafed.kept

theorem leaf_cooldown_ping :
    let ping : SlashCommand Unit := .leaf ⟨"ping", "Check bot responsiveness", []⟩
      { handler := fun _ data => (.ok (), data), policy := { cooldown := some 10 } }
    let interaction : Interaction :=
      ⟨1, 2, .applicationCommand, "token", none, none, some 7, none, .ok (some ⟨"ping", .chatInput, []⟩)⟩
    let deliveries : List Delivery := [⟨[], .ok ⟨0, interactionEvent interaction⟩, []⟩]
    let last : List TaskMove := [.start 0, .resume 0 5]
    let world : Execution.World Unit := ⟨(), fun _ _ => none, []⟩
    ∃ framework : Framework Unit, framework.registry.get "ping" = some ping ∧ CoolsDown framework ["ping"] 10 ∧
      (managedRun framework (fun _ => .ok ()) world last deliveries).dropped.world.cooldowns ["ping"] =
        keptAfter (((reservations ["ping"] 10).managedLog framework (fun _ => .ok ()) world last [] deliveries).map (·.1)) := by
  intro ping interaction deliveries last world
  obtain ⟨framework, hget⟩ := exists_framework ping rfl
  have hcools : CoolsDown framework ["ping"] 10 := by
    refine ⟨ping, { cooldown := some 10 }, leafAt_iff.mpr ?_, rfl, rfl⟩
    exact List.mem_flatMap.mpr ⟨ping, CommandRegistry.mem_iter.mpr hget, List.mem_singleton_self _⟩
  refine ⟨framework, hget, hcools, ?_⟩
  obtain ⟨hkept, -, -⟩ := leaf_cooldown framework (fun _ => .ok ()) () deliveries last [] hcools
  exact hkept

end GloamCommands.Dispatch
