/-
  GloamCommands.Dispatch.Limits — which configured limits can be used.

  A limit is consumed far from where it is given. `max_concurrency` makes a semaphore at
  once, `build` makes the framework's, and tokio's constructor panics above its maximum;
  a cooldown is added to the instant of every invocation that reaches it, and a sum that
  the clock cannot name is refused there with `InvalidCommandPolicy`. What is checked is
  that neither number of slots is zero.

  Here an application is written down before any of it has run: policies as lists of
  builder calls (`PolicyCall`), commands as trees of them (`Declaration`). `none` is a
  panic.
  - `newPolicy_iff`, `construct_iff`: what can be constructed.
  - `evaluate_invalid_iff`: when an invocation is refused for its policy.
  - `limits_usable_iff`: exactly which configurations keep what they are given.
  - `unlimited_unusable`: `usize::MAX` and `Duration::MAX`, meant as unlimited.
-/

import GloamCommands.Core.Agreement
import GloamCommands.Dispatch.Builder
import GloamCommands.Dispatch.Permits
import GloamCommands.Execution.Order
import GloamCommands.Lib.Collect
import GloamCommands.Macros.Command

namespace GloamCommands.Dispatch

open Lib (forall₂_mem_left forall₂_mem_right)
open Macros (maxPermits)

variable {D : Type}

/-! ## Policies -/

def Semaphore.new (permits : Nat) : Option Semaphore := if permits ≤ maxPermits then some ⟨permits, false⟩ else none

inductive PolicyCall (D : Type) where
  | check (check : CheckDescriptor D)
  | contexts (contexts : List InteractionContextType)
  | guildOnly
  | memberPermissions (permissions : Permissions)
  | botPermissions (permissions : Permissions)
  | cooldown (duration : Duration)
  | maxConcurrency (limit : Nat)

/-- A policy with the semaphore it owns. -/
structure OwnedPolicy (D : Type) where
  policy : CommandPolicy D := {}
  commandSlots : Option Semaphore := none
  sized : commandSlots.map (·.available) = policy.commandSlots := by rfl

theorem new_available {limit : Nat} {slots : Semaphore} (h : Semaphore.new limit = some slots) : slots.available = limit := by
  unfold Semaphore.new at h
  split at h
  · cases h
    rfl
  · cases h

theorem new_iff (limit : Nat) : (∃ slots, Semaphore.new limit = some slots) ↔ limit ≤ maxPermits := by
  unfold Semaphore.new
  split <;> simp [*]

def OwnedPolicy.call (owned : OwnedPolicy D) : PolicyCall D → Option (OwnedPolicy D)
  | .check check => some { owned with policy := { owned.policy with checks := owned.policy.checks ++ [check] } }
  | .contexts contexts => some { owned with policy := { owned.policy with contexts := contexts } }
  | .guildOnly => some { owned with policy := { owned.policy with contexts := [.guild] } }
  | .memberPermissions permissions => some { owned with policy := { owned.policy with memberPermissions := some permissions } }
  | .botPermissions permissions => some { owned with policy := { owned.policy with botPermissions := some permissions } }
  | .cooldown duration => some { owned with policy := { owned.policy with cooldown := some duration } }
  | .maxConcurrency limit =>
    match h : Semaphore.new limit with
    | none => none
    | some slots => some ⟨{ owned.policy with maxConcurrency := some limit }, some slots, congrArg some (new_available h)⟩

def OwnedPolicy.calls (owned : OwnedPolicy D) : List (PolicyCall D) → Option (OwnedPolicy D)
  | [] => some owned
  | call :: rest => (owned.call call).bind (·.calls rest)

def newPolicy (calls : List (PolicyCall D)) : Option (OwnedPolicy D) := OwnedPolicy.calls {} calls

def PolicyCall.limit : PolicyCall D → Option Nat
  | .maxConcurrency limit => some limit
  | _ => none

def givenLimit : List (PolicyCall D) → Option Nat
  | [] => none
  | call :: rest => (givenLimit rest).or call.limit

/-- Only a limit above the maximum makes a call panic. -/
theorem call_iff (owned : OwnedPolicy D) (call : PolicyCall D) :
    (∃ next, owned.call call = some next) ↔ ∀ limit, call.limit = some limit → limit ≤ maxPermits := by
  cases call with
  | maxConcurrency limit =>
    have hnew := new_iff limit
    simp only [PolicyCall.limit, Option.some.injEq, forall_eq', ← hnew]
    unfold OwnedPolicy.call
    dsimp only
    split
    · rename_i h
      simp [h]
    · rename_i slots h
      exact ⟨fun _ => ⟨slots, h⟩, fun _ => ⟨_, rfl⟩⟩
  | _ => exact ⟨fun _ limit h => (by cases h), fun _ => ⟨_, rfl⟩⟩

theorem call_limit {owned next : OwnedPolicy D} {call : PolicyCall D} (h : owned.call call = some next) :
    next.policy.maxConcurrency = call.limit.or owned.policy.maxConcurrency := by
  cases call with
  | maxConcurrency limit =>
    unfold OwnedPolicy.call at h
    dsimp only at h
    split at h
    · cases h
    · cases h
      rfl
  | _ => cases h; rfl

theorem calls_iff (calls : List (PolicyCall D)) : ∀ owned : OwnedPolicy D,
    (∃ next, owned.calls calls = some next) ↔ ∀ call ∈ calls, ∀ limit, call.limit = some limit → limit ≤ maxPermits := by
  induction calls with
  | nil => exact fun owned => ⟨fun _ _ h => absurd h List.not_mem_nil, fun _ => ⟨owned, rfl⟩⟩
  | cons call rest ih =>
    intro owned
    rw [List.forall_mem_cons, ← call_iff owned call]
    unfold OwnedPolicy.calls
    cases owned.call call with
    | none => simp
    | some next =>
      rw [← ih next]
      simp

theorem calls_limit (calls : List (PolicyCall D)) : ∀ {owned next : OwnedPolicy D}, owned.calls calls = some next →
    next.policy.maxConcurrency = (givenLimit calls).or owned.policy.maxConcurrency := by
  induction calls with
  | nil =>
    intro owned next h
    cases h
    rfl
  | cons call rest ih =>
    intro owned next h
    obtain ⟨mid, hmid, hrest⟩ := Option.bind_eq_some_iff.mp h
    rw [ih hrest, call_limit hmid, givenLimit, Option.or_assoc]

/-- A policy can be constructed exactly if no limit it is given is above the maximum. -/
theorem newPolicy_iff (calls : List (PolicyCall D)) :
    (∃ owned, newPolicy calls = some owned) ↔ ∀ call ∈ calls, ∀ limit, call.limit = some limit → limit ≤ maxPermits :=
  calls_iff calls {}

theorem newPolicy_slots {calls : List (PolicyCall D)} {owned : OwnedPolicy D} (h : newPolicy calls = some owned) :
    owned.commandSlots.map (·.available) = givenLimit calls := by
  rw [owned.sized]
  exact (calls_limit calls h).trans Option.or_none

/-! ## Commands -/

/-- A command as the application writes it. -/
inductive Declaration (D : Type) where
  | leaf (descriptor : CommandDescriptor) (handler : CommandHandler D)
      (autocomplete : List (AutocompleteHandlerDescriptor D)) (policy : List (PolicyCall D))
  | group (descriptor : CommandDescriptor) (children : List (Declaration D))

mutual

/-- `SlashCommand::new_with_autocomplete_and_policy` and `SlashCommand::group`. -/
def construct : Declaration D → Option (SlashCommand D)
  | .leaf descriptor handler autocomplete policy =>
    (newPolicy policy).map fun owned => .leaf descriptor ⟨handler, autocomplete, owned.policy⟩
  | .group descriptor children => (constructAll children).map (.group descriptor)
termination_by structural declaration => declaration

def constructAll : List (Declaration D) → Option (List (SlashCommand D))
  | [] => some []
  | declaration :: rest =>
    match construct declaration with
    | none => none
    | some command => (constructAll rest).map (command :: ·)
termination_by structural declarations => declarations

end

mutual

def policies : Declaration D → List (List String × List (PolicyCall D))
  | .leaf descriptor _ _ policy => [([descriptor.name], policy)]
  | .group descriptor children => (policiesAll children).map fun x => (descriptor.name :: x.1, x.2)
termination_by structural declaration => declaration

def policiesAll : List (Declaration D) → List (List String × List (PolicyCall D))
  | [] => []
  | declaration :: rest => policies declaration ++ policiesAll rest
termination_by structural declarations => declarations

end

/-- A leaf, and the calls its policy was made by. -/
def MadeBy (x : List String × List (PolicyCall D)) (y : List String × SlashCommand D) : Prop :=
  y.1 = x.1 ∧ ∃ owned, newPolicy x.2 = some owned ∧ y.2.policy = some owned.policy

theorem under_madeBy {xs : List (List String × List (PolicyCall D))} {ys : List (List String × SlashCommand D)}
    (name : String) (h : List.Forall₂ MadeBy xs ys) :
    List.Forall₂ MadeBy (xs.map fun x => (name :: x.1, x.2)) (ys.map fun y => (name :: y.1, y.2)) := by
  rw [List.forall₂_map_left_iff, List.forall₂_map_right_iff]
  exact h.imp fun _ _ hxy => ⟨congrArg (name :: ·) hxy.1, hxy.2⟩

mutual

/-- The leaves of a constructed command are those declared, in order. -/
theorem construct_leaves : ∀ (declaration : Declaration D) {command : SlashCommand D},
    construct declaration = some command → List.Forall₂ MadeBy (policies declaration) (leaves command)
  | .leaf descriptor handler autocomplete policy, command, h => by
    rw [construct] at h
    obtain ⟨owned, howned, rfl⟩ := Option.map_eq_some_iff.mp h
    exact .cons ⟨rfl, owned, howned, rfl⟩ .nil
  | .group descriptor children, command, h => by
    rw [construct] at h
    obtain ⟨trees, htrees, rfl⟩ := Option.map_eq_some_iff.mp h
    rw [policies, leaves]
    exact under_madeBy descriptor.name (constructAll_leaves children htrees)

theorem constructAll_leaves : ∀ (declarations : List (Declaration D)) {commands : List (SlashCommand D)},
    constructAll declarations = some commands → List.Forall₂ MadeBy (policiesAll declarations) (childLeaves commands)
  | [], commands, h => by
    cases h
    exact .nil
  | declaration :: rest, commands, h => by
    rw [constructAll] at h
    split at h
    · cases h
    · rename_i command hcommand
      obtain ⟨trees, htrees, rfl⟩ := Option.map_eq_some_iff.mp h
      rw [policiesAll, childLeaves]
      exact List.rel_append (construct_leaves declaration hcommand) (constructAll_leaves rest htrees)

end

mutual

theorem construct_iff : ∀ declaration : Declaration D,
    (∃ command, construct declaration = some command) ↔ ∀ x ∈ policies declaration, ∃ owned, newPolicy x.2 = some owned
  | .leaf descriptor handler autocomplete policy => by
    rw [construct, policies, List.forall_mem_singleton]
    cases newPolicy policy <;> simp
  | .group descriptor children => by
    rw [construct, policies, List.forall_mem_map, ← constructAll_iff children]
    cases constructAll children <;> simp

/-- Commands can be constructed exactly if all of their policies can. -/
theorem constructAll_iff : ∀ declarations : List (Declaration D),
    (∃ commands, constructAll declarations = some commands) ↔
      ∀ x ∈ policiesAll declarations, ∃ owned, newPolicy x.2 = some owned
  | [] => ⟨fun _ _ h => absurd h List.not_mem_nil, fun _ => ⟨[], rfl⟩⟩
  | declaration :: rest => by
    rw [constructAll, policiesAll, List.forall_mem_append, ← construct_iff declaration, ← constructAll_iff rest]
    cases construct declaration with
    | none => simp
    | some command => cases constructAll rest <;> simp

end

/-! ## The framework -/

/-- A framework with the semaphore that bounds it. -/
structure BuiltFramework (D : Type) where
  framework : Framework D
  commandSlots : Semaphore
  sized : commandSlots.available = framework.maxConcurrentCommands

/-- `build` to its end, `none` where it panics: an error is returned before the semaphore
    is made. -/
def FrameworkBuilder.buildSlots (builder : FrameworkBuilder D) : Option (Except Error (BuiltFramework D)) :=
  match builder.build with
  | .error error => some (.error error)
  | .ok framework =>
    match h : Semaphore.new framework.maxConcurrentCommands with
    | none => none
    | some slots => some (.ok ⟨framework, slots, new_available h⟩)

/-- The commands are constructed, given to a builder that has the other settings, and built. -/
def assemble (builder : FrameworkBuilder D) (declarations : List (Declaration D)) :
    Option (Except Error (BuiltFramework D)) :=
  match constructAll declarations with
  | none => none
  | some commands => { builder with commands := commands }.buildSlots

def Registrable (commands : List (SlashCommand D)) : Prop :=
  (∀ command ∈ commands, Valid command) ∧ (names commands).Nodup

theorem registrable_single {command : SlashCommand D} (h : validateHierarchy command = .ok ()) : Registrable [command] :=
  ⟨List.forall_mem_singleton.mpr ((validateHierarchy_iff command).mp h), List.nodup_singleton _⟩

theorem build_limit {builder : FrameworkBuilder D} {framework : Framework D} (h : builder.build = .ok framework) :
    framework.maxConcurrentCommands = builder.maxConcurrentCommands := by
  unfold FrameworkBuilder.build at h
  split at h
  · cases h
  · split at h
    · cases h
    · cases h
      rfl

theorem buildSlots_error {builder : FrameworkBuilder D} {error : Error} (h : builder.build = .error error) :
    builder.buildSlots = some (.error error) := by
  unfold FrameworkBuilder.buildSlots
  rw [h]

/-- Past the checks, only a limit above the maximum panics. -/
theorem buildSlots_ok {builder : FrameworkBuilder D} {framework : Framework D} (h : builder.build = .ok framework) :
    (∃ built, builder.buildSlots = some (.ok built) ∧ built.framework = framework ∧
        builder.maxConcurrentCommands ≤ maxPermits) ∨
      (builder.buildSlots = none ∧ maxPermits < builder.maxConcurrentCommands) := by
  have hnew := new_iff framework.maxConcurrentCommands
  rw [build_limit h] at hnew
  unfold FrameworkBuilder.buildSlots
  rw [h]
  dsimp only
  split
  · rename_i hnone
    rw [build_limit h] at hnone
    refine .inr ⟨rfl, Nat.lt_of_not_le fun hle => ?_⟩
    obtain ⟨slots, hslots⟩ := hnew.mpr hle
    rw [hnone] at hslots
    cases hslots
  · rename_i slots hsome
    rw [build_limit h] at hsome
    exact .inl ⟨_, rfl, rfl, hnew.mp ⟨slots, hsome⟩⟩

theorem built_leafAt {builder : FrameworkBuilder D} {framework : Framework D} (h : builder.build = .ok framework)
    (path : List String) (leaf : SlashCommand D) :
    framework.registry.leafAt path = some leaf ↔ (path, leaf) ∈ childLeaves builder.commands := by
  rw [leafAt_iff, childLeaves_eq]
  exact ((insertAll_iter (build_registry h)).flatMap_right leaves).mem_iff

/-! ## Invocations -/

/-- An invocation of the command on `path`, when its policy is evaluated. -/
structure Invocation (D : Type) where
  path : List String
  context : Context
  clock : Instant
  data : D
  cooldowns : Cooldowns
  named : clock ≤ Instant.last

def Invocation.Invalid (i : Invocation D) (policy : CommandPolicy D) : Prop :=
  ∃ path, (policy.evaluate i.context i.clock i.data i.cooldowns).1 = .error (.invalidCommandPolicy path)

/-- If the context and the permissions let it through: no check returns that error, and if
    they all pass and the user is known, the clock can name the end of the cooldown. -/
def Invocation.Fits (i : Invocation D) (policy : CommandPolicy D) : Prop :=
  firstFailure (entryOutcomes policy i.context) = .ok () →
    (∀ path, (runChecks i.context policy.checks i.data).1 ≠ .error (.invalidCommandPolicy path)) ∧
      ((runChecks i.context policy.checks i.data).1 = .ok () → ∀ duration, policy.cooldown = some duration →
        invokingUser i.context.interaction ≠ none → i.clock + duration ≤ Instant.last)

theorem permission_not_invalid {required actual : Option Permissions} {missing : Permissions → Permissions → Error}
    {path : String} (hmissing : ∀ r a, missing r a ≠ .invalidCommandPolicy path) :
    permissionOutcome required actual missing ≠ .error (.invalidCommandPolicy path) := by
  intro h
  unfold permissionOutcome at h
  split at h
  · cases h
  · split at h
    · cases h
    · exact hmissing _ _ (Except.error.inj h)

theorem entry_not_invalid {policy : CommandPolicy D} {context : Context} {error : Error}
    (h : firstFailure (entryOutcomes policy context) = .error error) (path : String) :
    error ≠ .invalidCommandPolicy path := by
  intro heq
  subst heq
  have hmem := firstFailure_mem h
  simp only [entryOutcomes, List.mem_cons, List.not_mem_nil, or_false] at hmem
  rcases hmem with hcontext | hmember | hbot
  · unfold contextOutcome at hcontext
    split at hcontext <;> cases hcontext
  · exact permission_not_invalid (fun _ _ hm => by cases hm) hmember.symm
  · exact permission_not_invalid (fun _ _ hm => by cases hm) hbot.symm

/-- A cooldown is refused for its policy exactly if the user is known and the clock cannot
    name the end of it. -/
theorem reserve_invalid_iff (context : Context) (clock : Instant) (duration : Duration) (cooldowns : Cooldowns) :
    (∃ path, (reserveCooldown context clock duration cooldowns).1 = .error (.invalidCommandPolicy path)) ↔
      invokingUser context.interaction ≠ none ∧ Instant.last < clock + duration := by
  unfold reserveCooldown sampleCooldown Instant.checkedAdd
  cases invokingUser context.interaction with
  | none => simp
  | some user =>
    by_cases hlast : clock + duration ≤ Instant.last
    · simp only [if_pos hlast]
      unfold lockedReserve
      split <;> simp [hlast]
    · simp [hlast, Nat.lt_of_not_le hlast]

/-- An invocation is refused for its policy exactly if it does not fit. -/
theorem evaluate_invalid_iff (i : Invocation D) (policy : CommandPolicy D) : i.Invalid policy ↔ ¬ i.Fits policy := by
  unfold Invocation.Invalid Invocation.Fits
  rw [evaluate_eq]
  cases hentry : firstFailure (entryOutcomes policy i.context) with
  | error error =>
    have hnot := entry_not_invalid hentry
    simp [hnot]
  | ok _ =>
    rcases hchecks : runChecks i.context policy.checks i.data with ⟨error | ⟨⟩, data⟩
    · simp
    · cases hcooldown : policy.cooldown with
      | none => simp
      | some duration =>
        have hreserve := reserve_invalid_iff i.context i.clock duration i.cooldowns
        simp [hreserve]

/-! ## Usable limits -/

/-- Nothing panics; and in a framework that was built, the slots are the limits given, and
    none of the `later` invocations is refused for its policy. -/
def LimitsUsable (builder : FrameworkBuilder D) (declarations : List (Declaration D)) (later : List (Invocation D)) : Prop :=
  ∃ result, assemble builder declarations = some result ∧ ∀ built, result = .ok built →
    built.commandSlots.available = builder.maxConcurrentCommands ∧
    (∀ x ∈ policiesAll declarations, ∃ leaf owned, built.framework.registry.leafAt x.1 = some leaf ∧
      newPolicy x.2 = some owned ∧ leaf.policy = some owned.policy ∧
      owned.commandSlots.map (·.available) = givenLimit x.2) ∧
    ∀ i ∈ later, ∀ leaf policy, built.framework.registry.leafAt i.path = some leaf →
      leaf.policy = some policy → ¬ i.Invalid policy

/-- No limit is above the semaphore's maximum, the framework's if its semaphore is made,
    and the invocations fit the policies they reach. -/
structure WithinLimits (builder : FrameworkBuilder D) (declarations : List (Declaration D)) (later : List (Invocation D)) :
    Prop where
  policies : ∀ x ∈ policiesAll declarations, ∀ call ∈ x.2, ∀ limit, call.limit = some limit → limit ≤ maxPermits
  framework : ∀ commands, constructAll declarations = some commands → Registrable commands →
    builder.maxConcurrentCommands ≤ maxPermits
  fits : ∀ commands, constructAll declarations = some commands → Registrable commands →
    builder.maxConcurrentCommands ≠ 0 → ∀ i ∈ later, ∀ leaf policy, (i.path, leaf) ∈ childLeaves commands →
      leaf.policy = some policy → i.Fits policy

theorem constructAll_policies_iff (declarations : List (Declaration D)) :
    (∃ commands, constructAll declarations = some commands) ↔
      ∀ x ∈ policiesAll declarations, ∀ call ∈ x.2, ∀ limit, call.limit = some limit → limit ≤ maxPermits := by
  rw [constructAll_iff]
  exact forall₂_congr fun x _ => newPolicy_iff x.2

theorem assemble_eq {builder : FrameworkBuilder D} {declarations : List (Declaration D)} {commands : List (SlashCommand D)}
    (h : constructAll declarations = some commands) :
    assemble builder declarations = { builder with commands := commands }.buildSlots := by
  unfold assemble
  rw [h]

theorem usable_constructs {builder : FrameworkBuilder D} {declarations : List (Declaration D)} {later : List (Invocation D)}
    (h : LimitsUsable builder declarations later) : ∃ commands, constructAll declarations = some commands := by
  obtain ⟨result, hassemble, -⟩ := h
  unfold assemble at hassemble
  split at hassemble
  · cases hassemble
  · rename_i commands hcommands
    exact ⟨commands, hcommands⟩

/-- Commands that can be registered, under a limit that is not zero, reach the semaphore. -/
theorem usable_builds {builder : FrameworkBuilder D} {declarations : List (Declaration D)} {later : List (Invocation D)}
    {commands : List (SlashCommand D)} (h : LimitsUsable builder declarations later)
    (hcommands : constructAll declarations = some commands) (hregistrable : Registrable commands)
    (hzero : builder.maxConcurrentCommands ≠ 0) :
    builder.maxConcurrentCommands ≤ maxPermits ∧ ∀ i ∈ later, ∀ leaf policy, (i.path, leaf) ∈ childLeaves commands →
      leaf.policy = some policy → i.Fits policy := by
  obtain ⟨result, hassemble, hkeep⟩ := h
  rw [assemble_eq hcommands] at hassemble
  obtain ⟨framework, hbuild⟩ := (build_iff { builder with commands := commands }).mpr ⟨hzero, hregistrable⟩
  rcases buildSlots_ok hbuild with ⟨built, hslots, rfl, hle⟩ | ⟨hnone, -⟩
  · refine ⟨hle, fun i hi leaf policy hleaf hpolicy => ?_⟩
    rw [hslots] at hassemble
    obtain ⟨-, -, hlater⟩ := hkeep built (Option.some.inj hassemble).symm
    have hvalid : ¬ i.Invalid policy := hlater i hi leaf policy ((built_leafAt hbuild i.path leaf).mpr hleaf) hpolicy
    rw [evaluate_invalid_iff, not_not] at hvalid
    exact hvalid
  · rw [hnone] at hassemble
    cases hassemble

theorem built_policies {builder : FrameworkBuilder D} {framework : Framework D} {declarations : List (Declaration D)}
    (hcommands : constructAll declarations = some builder.commands) (hbuild : builder.build = .ok framework) :
    ∀ x ∈ policiesAll declarations, ∃ leaf owned, framework.registry.leafAt x.1 = some leaf ∧
      newPolicy x.2 = some owned ∧ leaf.policy = some owned.policy ∧
      owned.commandSlots.map (·.available) = givenLimit x.2 := by
  intro x hx
  obtain ⟨y, hy, hpath, owned, howned, hpolicy⟩ := forall₂_mem_left (constructAll_leaves declarations hcommands) hx
  refine ⟨y.2, owned, (built_leafAt hbuild x.1 y.2).mpr ?_, howned, hpolicy, newPolicy_slots howned⟩
  rw [← hpath]
  exact hy

/-- Exactly the configurations and invocations that keep what they are given. -/
theorem limits_usable_iff (builder : FrameworkBuilder D) (declarations : List (Declaration D)) (later : List (Invocation D)) :
    LimitsUsable builder declarations later ↔ WithinLimits builder declarations later := by
  constructor
  · intro h
    refine ⟨(constructAll_policies_iff declarations).mp (usable_constructs h), fun commands hcommands hregistrable => ?_,
      fun commands hcommands hregistrable hzero => (usable_builds h hcommands hregistrable hzero).2⟩
    by_cases hzero : builder.maxConcurrentCommands = 0
    · omega
    · exact (usable_builds h hcommands hregistrable hzero).1
  · intro h
    obtain ⟨commands, hcommands⟩ := (constructAll_policies_iff declarations).mpr h.policies
    unfold LimitsUsable
    rw [assemble_eq hcommands]
    cases hbuild : { builder with commands := commands }.build with
    | error error => exact ⟨.error error, buildSlots_error hbuild, fun built hbuilt => by cases hbuilt⟩
    | ok framework =>
      obtain ⟨hzero, hregistrable⟩ := (build_iff { builder with commands := commands }).mp ⟨framework, hbuild⟩
      rcases buildSlots_ok hbuild with ⟨built, hslots, rfl, hle⟩ | ⟨-, hlt⟩
      · refine ⟨.ok built, hslots, fun built' heq => ?_⟩
        cases heq
        have hlimit : built.framework.maxConcurrentCommands = builder.maxConcurrentCommands := by rw [build_limit hbuild]
        refine ⟨built.sized.trans hlimit, built_policies hcommands hbuild, fun i hi leaf policy hleaf hpolicy => ?_⟩
        rw [evaluate_invalid_iff, not_not]
        exact h.fits commands hcommands hregistrable hzero i hi leaf policy ((built_leafAt hbuild i.path leaf).mp hleaf) hpolicy
      · exact absurd (h.framework commands hcommands hregistrable) (Nat.not_le.mpr hlt)

/-- `usize::MAX` slots, for the framework or for a command, and a cooldown of
    `Duration::MAX` when `/ping` is first used. -/
theorem unlimited_unusable :
    let ping (policy : List (PolicyCall Unit)) : Declaration Unit :=
      .leaf ⟨"ping", "Check bot responsiveness", []⟩ (fun _ data => (.ok (), data)) [] policy
    let data : ApplicationCommandInteractionData := ⟨"ping", .chatInput, []⟩
    let interaction : Interaction := ⟨1, 1, .applicationCommand, "token", none, none, some 1, none, .ok (some data)⟩
    let first : Invocation Unit :=
      ⟨["ping"], ⟨interaction, data, ["ping"], [], none⟩, 0, (), fun _ => none, Nat.zero_le _⟩
    ¬ LimitsUsable { maxConcurrentCommands := 2 ^ 64 - 1 } [ping []] [] ∧
      ¬ LimitsUsable {} [ping [.maxConcurrency (2 ^ 64 - 1)]] [] ∧
      ¬ LimitsUsable {} [ping [.cooldown ((2 ^ 64 - 1) * 1000000000 + 999999999)]] [first] := by
  intro ping data interaction first
  refine ⟨fun h => ?_, fun h => ?_, fun h => ?_⟩
  · obtain ⟨hle, -⟩ := usable_builds h rfl (registrable_single rfl) (by decide)
    revert hle
    decide
  · obtain ⟨commands, hcommands⟩ := usable_constructs h
    cases hcommands
  · obtain ⟨-, hfits⟩ := usable_builds h rfl (registrable_single rfl) (by decide)
    have hfirst : first.Fits _ := hfits first (List.mem_singleton_self _) _ _ (List.mem_singleton_self _) rfl
    obtain ⟨-, hlast⟩ := hfirst rfl
    have hle := hlast rfl _ rfl (by decide)
    revert hle
    decide

end GloamCommands.Dispatch
