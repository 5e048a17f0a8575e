/-
  GloamCommands.Execution.Policy — evaluating a policy before a command runs
  (`CommandPolicy::evaluate`, `reserve_cooldown` in crates/gloam-commands/src/policy.rs).

  A policy's own cooldown map is passed in and returned. `reserveCooldown` is cut where
  the source waits for the map's lock: `sampleCooldown` reads the clock before it,
  `lockedReserve` is what happens under it, with no await in between.
  - `evaluate_error_unchanged`: a refused invocation leaves the cooldowns as they were.
  - `lockedReserve_iff`: the reservation succeeds exactly when no later deadline is kept.
-/

import GloamCommands.Core.Command
import Mathlib.Logic.Function.Basic

namespace GloamCommands

variable {D : Type}

/-! ## Cooldowns -/

abbrev Cooldowns := UserId → Option Instant

/-- The last instant the platform's clock can name (64-bit seconds). -/
def Instant.last : Instant := (2 ^ 63 - 1) * 1000000000 + 999999999

def Instant.checkedAdd (now : Instant) (duration : Duration) : Option Instant :=
  if now + duration ≤ Instant.last then some (now + duration) else none

def commandPath (context : Context) : String := " ".intercalate context.commandPath

def invokingUser (interaction : Interaction) : Option UserId :=
  interaction.user.or (interaction.member.bind (·.user))

def retain (cooldowns : Cooldowns) (now : Instant) : Cooldowns := fun user => (cooldowns user).filter (now < ·)

/-- A call's instant and its deadline, taken before the lock. -/
structure Sample where
  user : UserId
  now : Instant
  readyAt : Instant
  deriving DecidableEq, Repr

def sampleCooldown (context : Context) (clock : Instant) (duration : Duration) : Except Error Sample :=
  match invokingUser context.interaction with
  | none => .error (.commandUserUnavailable (commandPath context))
  | some user =>
    match clock.checkedAdd duration with
    | none => .error (.invalidCommandPolicy (commandPath context))
    | some readyAt => .ok ⟨user, clock, readyAt⟩

def lockedReserve (path : String) (sample : Sample) (cooldowns : Cooldowns) : Except Error Unit × Cooldowns :=
  match (cooldowns sample.user).filter (sample.now < ·) with
  | some deadline => (.error (.commandOnCooldown path (deadline - sample.now)), cooldowns)
  | none => (.ok (), retain (Function.update cooldowns sample.user (some sample.readyAt)) sample.now)

def reserveCooldown (context : Context) (clock : Instant) (duration : Duration) (cooldowns : Cooldowns) :
    Except Error Unit × Cooldowns :=
  match sampleCooldown context clock duration with
  | .error error => (.error error, cooldowns)
  | .ok sample => lockedReserve (commandPath context) sample cooldowns

/-! ## Evaluation -/

def contextAllowed (policy : CommandPolicy D) (interaction : Interaction) : Bool :=
  policy.contexts.isEmpty || interaction.context.any policy.contexts.contains

def runChecks (context : Context) : List (CheckDescriptor D) → D → Except Error Unit × D
  | [], data => (.ok (), data)
  | check :: rest, data =>
    match check.handler context data with
    | (.error error, data) => (.error error, data)
    | (.ok false, data) => (.error (.commandCheckFailed (commandPath context) check.name), data)
    | (.ok true, data) => runChecks context rest data

/-- The permissions an interaction lacks, as an error; `actual` are those it has. -/
def requirePermissions (required : Option Permissions) (actual : Option Permissions)
    (missing : Permissions → Permissions → Error) : Except Error Unit :=
  match required with
  | none => .ok ()
  | some required =>
    let actual := actual.getD Permissions.empty
    if actual.contains required then .ok () else .error (missing required actual)

/-- `evaluate`, with the clock read when the cooldown is reached. -/
def CommandPolicy.evaluate (policy : CommandPolicy D) (context : Context) (clock : Instant) (data : D)
    (cooldowns : Cooldowns) : Except Error Unit × D × Cooldowns :=
  let path := commandPath context
  let interaction := context.interaction
  if !contextAllowed policy interaction then (.error (.commandContextNotAllowed path), data, cooldowns)
  else
    match requirePermissions policy.memberPermissions (interaction.member.bind (·.permissions))
        (.missingMemberPermissions path) with
    | .error error => (.error error, data, cooldowns)
    | .ok () =>
      match requirePermissions policy.botPermissions interaction.appPermissions (.missingBotPermissions path) with
      | .error error => (.error error, data, cooldowns)
      | .ok () =>
        match runChecks context policy.checks data with
        | (.error error, data) => (.error error, data, cooldowns)
        | (.ok (), data) =>
          match policy.cooldown with
          | none => (.ok (), data, cooldowns)
          | some duration =>
            let (result, cooldowns) := reserveCooldown context clock duration cooldowns
            (result, data, cooldowns)

/-! ## What they do -/

theorem checkedAdd_some {now ready : Instant} {duration : Duration} (h : now.checkedAdd duration = some ready) :
    ready = now + duration := by
  unfold Instant.checkedAdd at h
  split at h
  · exact (Option.some.inj h).symm
  · cases h

theorem sampleCooldown_ok {context : Context} {clock : Instant} {duration : Duration} {sample : Sample}
    (h : sampleCooldown context clock duration = .ok sample) :
    invokingUser context.interaction = some sample.user ∧ sample.now = clock ∧ sample.readyAt = clock + duration := by
  unfold sampleCooldown at h
  split at h
  · cases h
  · rename_i user hu
    split at h
    · cases h
    · rename_i readyAt hr
      cases h
      exact ⟨hu, rfl, checkedAdd_some hr⟩

theorem retain_some {cooldowns : Cooldowns} {now deadline : Instant} {user : UserId} :
    retain cooldowns now user = some deadline ↔ cooldowns user = some deadline ∧ now < deadline := by
  simp [retain]

/-- The reservation succeeds exactly when no deadline later than the call's instant is kept. -/
theorem lockedReserve_iff (path : String) (sample : Sample) (cooldowns : Cooldowns) :
    (lockedReserve path sample cooldowns).1 = .ok () ↔
      ∀ deadline, cooldowns sample.user = some deadline → deadline ≤ sample.now := by
  unfold lockedReserve
  cases hc : (cooldowns sample.user).filter (sample.now < ·) with
  | none =>
    refine ⟨fun _ deadline hd => ?_, fun _ => rfl⟩
    rw [hd] at hc
    simpa using hc
  | some deadline =>
    refine ⟨fun h => (by cases h), fun h => ?_⟩
    obtain ⟨hd, hlt⟩ := Option.filter_eq_some_iff.mp hc
    exact absurd (h deadline hd) (Nat.not_le.mpr (by simpa using hlt))

theorem lockedReserve_ok {path : String} {sample : Sample} {cooldowns : Cooldowns}
    (h : (lockedReserve path sample cooldowns).1 = .ok ()) :
    (lockedReserve path sample cooldowns).2 =
      retain (Function.update cooldowns sample.user (some sample.readyAt)) sample.now := by
  unfold lockedReserve at h ⊢
  split at h
  · cases h
  · rfl

theorem lockedReserve_error {path : String} {sample : Sample} {cooldowns : Cooldowns} {error : Error}
    (h : (lockedReserve path sample cooldowns).1 = .error error) :
    (lockedReserve path sample cooldowns).2 = cooldowns := by
  unfold lockedReserve at h ⊢
  split at h
  · rfl
  · cases h

theorem reserveCooldown_error {context : Context} {clock : Instant} {duration : Duration} {cooldowns : Cooldowns}
    {error : Error} (h : (reserveCooldown context clock duration cooldowns).1 = .error error) :
    (reserveCooldown context clock duration cooldowns).2 = cooldowns := by
  unfold reserveCooldown at h ⊢
  split at h
  · rfl
  · exact lockedReserve_error h

/-- A refused invocation reserves nothing. -/
theorem evaluate_error_unchanged {policy : CommandPolicy D} {context : Context} {clock : Instant} {data : D}
    {cooldowns : Cooldowns} {error : Error} (h : (policy.evaluate context clock data cooldowns).1 = .error error) :
    (policy.evaluate context clock data cooldowns).2.2 = cooldowns := by
  unfold CommandPolicy.evaluate at h ⊢
  dsimp only at h ⊢
  by_cases hallowed : (!contextAllowed policy context.interaction) = true
  · rw [if_pos hallowed]
  rw [if_neg hallowed] at h ⊢
  cases hm : requirePermissions policy.memberPermissions (context.interaction.member.bind (·.permissions))
      (.missingMemberPermissions (commandPath context)) with
  | error e => rfl
  | ok _ =>
    cases hb : requirePermissions policy.botPermissions context.interaction.appPermissions
        (.missingBotPermissions (commandPath context)) with
    | error e => rfl
    | ok _ =>
      cases hc : runChecks context policy.checks data with
      | mk result data' =>
        cases result with
        | error e => rfl
        | ok _ =>
          cases hd : policy.cooldown with
          | none => rfl
          | some duration =>
            simp only [hm, hb, hc, hd] at h ⊢
            exact reserveCooldown_error h

end GloamCommands
