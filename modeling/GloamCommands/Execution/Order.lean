/-
  GloamCommands.Execution.Order — in which order a policy decides, and which checks it
  invokes (`CommandPolicy::evaluate` in crates/gloam-commands/src/policy.rs).

  `policyOutcomes` says of each step what it decides, in the documented order: context,
  the member's permissions, the application's, the checks as declared, the cooldown. To
  see which checks run, `watched` notes a check's index in the application state whenever
  its handler is called; the policy is then evaluated as it is.
  - `evaluate_first_failure`: the result is the first failure among the outcomes.
  - `evaluate_watched`: the checks invoked are those up to the first that is not true.
  - `evaluate_decides`: both, and the cooldowns of a refused invocation are untouched.
-/

import GloamCommands.Execution.Policy

namespace GloamCommands

variable {D : Type}

/-! ## What each step decides -/

def firstFailure : List (Except Error Unit) → Except Error Unit
  | [] => .ok ()
  | .error error :: _ => .error error
  | .ok () :: rest => firstFailure rest

def contextOutcome (policy : CommandPolicy D) (context : Context) : Except Error Unit :=
  if policy.contexts = [] ∨ ∃ current ∈ policy.contexts, context.interaction.context = some current then .ok ()
  else .error (.commandContextNotAllowed (commandPath context))

/-- Every required bit is needed; permissions that are not there are the empty set. -/
def permissionOutcome (required actual : Option Permissions) (missing : Permissions → Permissions → Error) :
    Except Error Unit :=
  match required with
  | none => .ok ()
  | some required =>
    if ∀ bit : Fin 64, required.getLsbD bit = true → (actual.getD 0).getLsbD bit = true then .ok ()
    else .error (missing required (actual.getD 0))

def memberOutcome (policy : CommandPolicy D) (context : Context) : Except Error Unit :=
  permissionOutcome policy.memberPermissions (context.interaction.member.bind (·.permissions))
    (.missingMemberPermissions (commandPath context))

def botOutcome (policy : CommandPolicy D) (context : Context) : Except Error Unit :=
  permissionOutcome policy.botPermissions context.interaction.appPermissions
    (.missingBotPermissions (commandPath context))

def checkOutcome (context : Context) (check : CheckDescriptor D) : Except Error Bool → Except Error Unit
  | .ok true => .ok ()
  | .ok false => .error (.commandCheckFailed (commandPath context) check.name)
  | .error error => .error error

/-- What the checks would decide if all were invoked, each in the state the one before leaves. -/
def checkOutcomes (context : Context) : List (CheckDescriptor D) → D → List (Except Error Unit)
  | [], _ => []
  | check :: rest, data =>
    checkOutcome context check (check.handler context data).1 ::
      checkOutcomes context rest (check.handler context data).2

def cooldownOutcome (policy : CommandPolicy D) (context : Context) (clock : Instant) (cooldowns : Cooldowns) :
    Except Error Unit :=
  match policy.cooldown with
  | none => .ok ()
  | some duration => (reserveCooldown context clock duration cooldowns).1

def entryOutcomes (policy : CommandPolicy D) (context : Context) : List (Except Error Unit) :=
  [contextOutcome policy context, memberOutcome policy context, botOutcome policy context]

/-- Every step of a policy, in the documented order. -/
def policyOutcomes (policy : CommandPolicy D) (context : Context) (clock : Instant) (data : D)
    (cooldowns : Cooldowns) : List (Except Error Unit) :=
  entryOutcomes policy context ++ checkOutcomes context policy.checks data ++
    [cooldownOutcome policy context clock cooldowns]

theorem firstFailure_append (xs ys : List (Except Error Unit)) :
    firstFailure (xs ++ ys) = (firstFailure xs).bind fun _ => firstFailure ys := by
  induction xs with
  | nil => rfl
  | cons x xs ih =>
    rcases x with error | ⟨⟩
    · rfl
    · exact ih

theorem firstFailure_mem {xs : List (Except Error Unit)} {error : Error} (h : firstFailure xs = .error error) :
    .error error ∈ xs := by
  induction xs with
  | nil => cases h
  | cons x xs ih =>
    rcases x with failed | ⟨⟩
    · cases h
      exact List.mem_cons_self
    · exact List.mem_cons_of_mem _ (ih h)

/-! ## The code decides the same -/

theorem contextAllowed_iff (policy : CommandPolicy D) (interaction : Interaction) :
    contextAllowed policy interaction = true ↔
      policy.contexts = [] ∨ ∃ current ∈ policy.contexts, interaction.context = some current := by
  unfold contextAllowed
  rw [Bool.or_eq_true, List.isEmpty_iff]
  cases interaction.context with
  | none => simp
  | some current => simp

theorem contains_iff (actual required : Permissions) :
    actual.contains required = true ↔ ∀ bit : Fin 64, required.getLsbD bit = true → actual.getLsbD bit = true := by
  unfold Permissions.contains
  rw [beq_iff_eq]
  constructor
  · intro h bit hr
    rw [← h, BitVec.getLsbD_and, Bool.and_eq_true] at hr
    exact hr.1
  · intro h
    apply BitVec.eq_of_getLsbD_eq
    intro bit hbit
    rw [BitVec.getLsbD_and]
    cases hr : required.getLsbD bit with
    | false => rw [Bool.and_false]
    | true => rw [h ⟨bit, hbit⟩ hr, Bool.and_true]

theorem requirePermissions_eq (required actual : Option Permissions) (missing : Permissions → Permissions → Error) :
    requirePermissions required actual missing = permissionOutcome required actual missing := by
  rcases required with _ | required
  · rfl
  unfold requirePermissions permissionOutcome
  by_cases hc : (actual.getD Permissions.empty).contains required = true
  · have hbits := (contains_iff _ _).mp hc
    exact (if_pos hc).trans (if_pos hbits).symm
  · have hbits := mt (contains_iff _ _).mpr hc
    exact (if_neg hc).trans (if_neg hbits).symm

theorem runChecks_fst (context : Context) (checks : List (CheckDescriptor D)) (data : D) :
    (runChecks context checks data).1 = firstFailure (checkOutcomes context checks data) := by
  induction checks generalizing data with
  | nil => rfl
  | cons check rest ih =>
    unfold runChecks checkOutcomes
    rcases check.handler context data with ⟨_ | passed, data'⟩
    · rfl
    · cases passed
      · rfl
      · exact ih data'

/-- `evaluate` as its steps: the entry steps, the checks, the cooldown. -/
theorem evaluate_eq (policy : CommandPolicy D) (context : Context) (clock : Instant) (data : D) (cooldowns : Cooldowns) :
    policy.evaluate context clock data cooldowns =
      match firstFailure (entryOutcomes policy context) with
      | .error error => (.error error, data, cooldowns)
      | .ok () =>
        match runChecks context policy.checks data with
        | (.error error, data) => (.error error, data, cooldowns)
        | (.ok (), data) =>
          match policy.cooldown with
          | none => (.ok (), data, cooldowns)
          | some duration =>
            ((reserveCooldown context clock duration cooldowns).1, data,
              (reserveCooldown context clock duration cooldowns).2) := by
  unfold CommandPolicy.evaluate entryOutcomes memberOutcome botOutcome contextOutcome
  simp only [requirePermissions_eq]
  by_cases hallowed : contextAllowed policy context.interaction = true
  · rw [if_neg (by simp [hallowed]), if_pos ((contextAllowed_iff _ _).mp hallowed)]
    simp only [firstFailure]
    rcases permissionOutcome policy.memberPermissions (context.interaction.member.bind (·.permissions))
        (.missingMemberPermissions (commandPath context)) with _ | ⟨⟩
    · rfl
    rcases permissionOutcome policy.botPermissions context.interaction.appPermissions
        (.missingBotPermissions (commandPath context)) with _ | ⟨⟩
    · rfl
    · rfl
  · rw [if_pos (by simp [hallowed]), if_neg (mt (contextAllowed_iff _ _).mpr hallowed)]
    rfl

/-- The result is the first failure among the steps' outcomes. -/
theorem evaluate_first_failure (policy : CommandPolicy D) (context : Context) (clock : Instant) (data : D)
    (cooldowns : Cooldowns) :
    (policy.evaluate context clock data cooldowns).1 =
      firstFailure (policyOutcomes policy context clock data cooldowns) := by
  rw [evaluate_eq, policyOutcomes, firstFailure_append, firstFailure_append, ← runChecks_fst]
  rcases firstFailure (entryOutcomes policy context) with error | ⟨⟩
  · rfl
  rcases hchecks : runChecks context policy.checks data with ⟨error | ⟨⟩, data'⟩
  · rfl
  unfold cooldownOutcome
  cases policy.cooldown with
  | none => rfl
  | some duration =>
    show (reserveCooldown context clock duration cooldowns).1 = firstFailure [(reserveCooldown context clock duration cooldowns).1]
    rcases (reserveCooldown context clock duration cooldowns).1 with error | ⟨⟩ <;> rfl

/-! ## The checks invoked -/

/-- A check that also notes its index when it is called. -/
def CheckDescriptor.watched (index : Nat) (check : CheckDescriptor D) : CheckDescriptor (D × List Nat) where
  name := check.name
  handler := fun context state =>
    ((check.handler context state.1).1, (check.handler context state.1).2, state.2 ++ [index])

def watchedFrom (index : Nat) : List (CheckDescriptor D) → List (CheckDescriptor (D × List Nat))
  | [] => []
  | check :: rest => check.watched index :: watchedFrom (index + 1) rest

def CommandPolicy.watched (policy : CommandPolicy D) : CommandPolicy (D × List Nat) where
  checks := watchedFrom 0 policy.checks
  contexts := policy.contexts
  memberPermissions := policy.memberPermissions
  botPermissions := policy.botPermissions
  cooldown := policy.cooldown
  maxConcurrency := policy.maxConcurrency

def passing (outcomes : List (Except Error Unit)) : Nat := (outcomes.takeWhile (·.toBool)).length

/-- The loop over watched checks does what the loop over the checks does, and notes the
    indexes up to the first check that is not true. -/
theorem runChecks_watched (context : Context) (checks : List (CheckDescriptor D)) (index : Nat) (data : D)
    (noted : List Nat) :
    runChecks context (watchedFrom index checks) (data, noted) =
      ((runChecks context checks data).1, (runChecks context checks data).2,
        noted ++ (List.range' index checks.length).take (passing (checkOutcomes context checks data) + 1)) := by
  induction checks generalizing index data noted with
  | nil => simp [runChecks, watchedFrom]
  | cons check rest ih =>
    simp only [watchedFrom, runChecks, checkOutcomes, CheckDescriptor.watched, List.length_cons, List.range'_succ,
      List.take_succ_cons]
    rcases hc : check.handler context data with ⟨error | passed, data'⟩
    · simp [checkOutcome, passing, Except.toBool]
    · cases passed
      · simp [checkOutcome, passing, Except.toBool]
      · simp only [ih, List.append_assoc, List.singleton_append]
        simp [checkOutcome, passing, Except.toBool]

theorem entryOutcomes_watched (policy : CommandPolicy D) (context : Context) :
    entryOutcomes policy.watched context = entryOutcomes policy context := rfl

/-- Watching changes nothing, and shows which checks run: none when an entry step fails,
    else those up to and including the first that is not true. -/
theorem evaluate_watched (policy : CommandPolicy D) (context : Context) (clock : Instant) (data : D)
    (cooldowns : Cooldowns) :
    policy.watched.evaluate context clock (data, []) cooldowns =
      ((policy.evaluate context clock data cooldowns).1,
        ((policy.evaluate context clock data cooldowns).2.1,
          if firstFailure (entryOutcomes policy context) = .ok () then
            (List.range policy.checks.length).take (passing (checkOutcomes context policy.checks data) + 1)
          else []),
        (policy.evaluate context clock data cooldowns).2.2) := by
  rw [evaluate_eq, evaluate_eq, entryOutcomes_watched]
  rcases firstFailure (entryOutcomes policy context) with error | ⟨⟩
  · simp
  simp only [show policy.watched.checks = watchedFrom 0 policy.checks from rfl,
    show policy.watched.cooldown = policy.cooldown from rfl, runChecks_watched, List.nil_append, if_true,
    List.range_eq_range']
  rcases runChecks context policy.checks data with ⟨error | ⟨⟩, data'⟩
  · rfl
  · cases policy.cooldown <;> rfl

/-- What a policy decides, which checks it invokes, and what a refusal leaves. -/
theorem evaluate_decides (policy : CommandPolicy D) (context : Context) (clock : Instant) (data : D)
    (cooldowns : Cooldowns) :
    (policy.evaluate context clock data cooldowns).1 =
        firstFailure (policyOutcomes policy context clock data cooldowns) ∧
      policy.watched.evaluate context clock (data, []) cooldowns =
        ((policy.evaluate context clock data cooldowns).1,
          ((policy.evaluate context clock data cooldowns).2.1,
            if firstFailure (entryOutcomes policy context) = .ok () then
              (List.range policy.checks.length).take (passing (checkOutcomes context policy.checks data) + 1)
            else []),
          (policy.evaluate context clock data cooldowns).2.2) ∧
      ((policy.evaluate context clock data cooldowns).2.2 ≠ cooldowns →
        (policy.evaluate context clock data cooldowns).1 = .ok ()) := by
  refine ⟨evaluate_first_failure policy context clock data cooldowns, evaluate_watched policy context clock data cooldowns,
    fun hchanged => ?_⟩
  rcases hresult : (policy.evaluate context clock data cooldowns).1 with error | ⟨⟩
  · exact absurd (evaluate_error_unchanged hresult) hchanged
  · rfl

end GloamCommands
